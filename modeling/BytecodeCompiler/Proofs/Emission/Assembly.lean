import BytecodeCompiler.Proofs.Emission.Patching
import Mathlib.Data.List.Nodup

-- What emission has written after each piece. It writes jumps before it knows where they lead and
-- patches them later, and it writes the length of a block after its inside. In between, the code
-- holds the pieces with the labels known so far, and the marks are the jumps that still wait.

namespace BytecodeCompiler

open Piece (bytesAll labelsAll namesAll slotsAll targetsAll sizeAll)

/-! ## The state after some pieces -/

/-- The labels of the pieces as emission keeps them: the latest first, in sixteen bits. -/
def tableOf (ps : List Piece) : List (Ident × UInt16) :=
  ((labelsAll 0 ps).map fun entry => (entry.1, UInt16.ofNat entry.2)).reverse

/-- The labels of the pieces can all be defined. -/
structure LabelsFit (ps : List Piece) : Prop where
  distinct : (namesAll ps).Nodup
  inRange : ∀ entry ∈ labelsAll 0 ps, entry.2 < 0x10000

/-- The state of emission after it wrote the pieces. -/
structure Holds (ps : List Piece) (e : Emission) : Prop where
  code : e.code.toList = bytesAll (filled e.labels) ps
  labels : e.labels = tableOf ps
  marks : e.marks.toList = waiting e.labels (slotsAll 0 ps)
  fit : LabelsFit ps

theorem holds_nil : Holds [] .empty := ⟨rfl, rfl, rfl, List.nodup_nil, fun _ h => nomatch h⟩

theorem Holds.size_code {ps : List Piece} {e : Emission} (h : Holds ps e) :
    e.code.size = sizeAll ps := by
  rw [← Array.length_toList, h.code, Piece.length_bytesAll]

theorem LabelsFit.left {ps qs : List Piece} (h : LabelsFit (ps ++ qs)) : LabelsFit ps := by
  obtain ⟨hdistinct, hrange⟩ := h
  rw [Piece.namesAll_append] at hdistinct
  rw [Piece.labelsAll_append] at hrange
  exact ⟨hdistinct.of_append_left, fun entry he => hrange entry (List.mem_append_left _ he)⟩

theorem lookup_tableOf_isSome (ps : List Piece) (l : Ident) :
    ((tableOf ps).lookup l).isSome = true ↔ l ∈ namesAll ps := by
  rw [← Piece.map_fst_labelsAll 0 ps]
  simp [tableOf]

theorem lookup_tableOf_eq_none (ps : List Piece) (l : Ident) :
    (tableOf ps).lookup l = none ↔ l ∉ namesAll ps := by
  rw [← lookup_tableOf_isSome, Option.isSome_iff_ne_none, not_not]

/-! ## Steps that write pieces -/

/-- Why emission of the pieces may be refused. -/
def Blames (ps : List Piece) : Fault → Prop
  | .identTooLong _ => True
  | .invalidEncoding .. => True
  | .blockTooLarge _ => True
  | .labelOutOfRange .. => True
  | .duplicateLabel _ => ¬ (namesAll ps).Nodup
  | _ => False

theorem Blames.append {ps : List Piece} {fault : Fault} (h : Blames ps fault) (qs : List Piece) :
    Blames (ps ++ qs) fault := by
  cases fault with
  | duplicateLabel l =>
    intro hdistinct
    rw [Piece.namesAll_append] at hdistinct
    exact h hdistinct.of_append_left
  | identTooLong | invalidEncoding | blockTooLarge | labelOutOfRange => trivial
  | unknownNode | danglingMarks | missingInference | noValue | breakOutsideLoop | unmappedToken
  | unknownTypeCode | unknownOpcode | unexpectedEnd | patchOutside | noSuchNode | cyclicTree
  | namesExhausted => exact h

theorem blames_of_isRefusal {ps : List Piece} {fault : Fault} (h : fault.isRefusal = true) :
    Blames ps fault := by
  cases fault with
  | identTooLong | invalidEncoding => trivial
  | _ => cases h

/-- The step writes the pieces behind whatever was written before, if the condition holds and
the labels fit. Otherwise it is refused. -/
structure Emits (step : Emitter Unit) (cond : Prop) (qs : List Piece) : Prop where
  ok : ∀ {ps : List Piece} {e : Emission}, Holds ps e → cond → LabelsFit (ps ++ qs) →
    ∃ e', step e = .ok () e' ∧ Holds (ps ++ qs) e'
  refused : ∀ {ps : List Piece} {e : Emission}, Holds ps e → ¬ (cond ∧ LabelsFit (ps ++ qs)) →
    ∃ fault e', step e = .error fault e' ∧ Blames (ps ++ qs) fault

theorem emits_nothing : Emits (pure ()) True [] := by
  constructor
  · intro ps e h _ _
    exact ⟨e, rfl, by rwa [List.append_nil]⟩
  · intro ps e h hnot
    rw [List.append_nil] at hnot
    exact absurd ⟨trivial, h.fit⟩ hnot

theorem Emits.seq {a b : Emitter Unit} {p q : Prop} {qs rs : List Piece} (ha : Emits a p qs)
    (hb : Emits b q rs) : Emits (do a; b) (p ∧ q) (qs ++ rs) := by
  constructor
  · rintro ps e h ⟨hp, hq⟩ hfit
    rw [← List.append_assoc] at hfit ⊢
    obtain ⟨e', hrun, h'⟩ := ha.ok h hp hfit.left
    obtain ⟨e'', hrun', h''⟩ := hb.ok h' hq hfit
    exact ⟨e'', by rw [bind_of_ok hrun, hrun'], h''⟩
  · intro ps e h hnot
    rw [← List.append_assoc] at hnot ⊢
    by_cases hfirst : p ∧ LabelsFit (ps ++ qs)
    · obtain ⟨e', hrun, h'⟩ := ha.ok h hfirst.1 hfirst.2
      obtain ⟨fault, e'', hrun', hblame⟩ :=
        hb.refused h' fun hsecond => hnot ⟨⟨hfirst.1, hsecond.1⟩, hsecond.2⟩
      exact ⟨fault, e'', by rw [bind_of_ok hrun, hrun'], hblame⟩
    · obtain ⟨fault, e', hrun, hblame⟩ := ha.refused h hfirst
      exact ⟨fault, e', bind_of_error hrun, hblame.append rs⟩

theorem Emits.congr {a : Emitter Unit} {p q : Prop} {qs : List Piece} (ha : Emits a p qs)
    (h : p ↔ q) : Emits a q qs := by
  rwa [← propext h]

/-! ## Pieces without labels and jumps -/

/-- A piece in which no label stands and from which no jump leads. -/
structure Piece.Plain (p : Piece) : Prop where
  labels : ∀ start, p.labels start = []
  slots : ∀ start, p.slots start = []
  names : p.names = []

theorem Holds.append_plain {ps : List Piece} {e : Emission} {p : Piece} (h : Holds ps e)
    (hp : p.Plain) (code : Code) (map : SourceMap)
    (hcode : code.toList = e.code.toList ++ p.bytes (filled e.labels)) :
    Holds (ps ++ [p]) ⟨code, map, e.labels, e.marks⟩ := by
  have hlabels : labelsAll 0 (ps ++ [p]) = labelsAll 0 ps := by
    simp only [Piece.labelsAll_append, labelsAll, hp.labels, List.append_nil]
  have hnames : namesAll (ps ++ [p]) = namesAll ps := by
    simp only [Piece.namesAll_append, namesAll, hp.names, List.append_nil]
  refine ⟨?_, ?_, ?_, ?_, ?_⟩
  · simp only [hcode, h.code, Piece.bytesAll_append, bytesAll, List.append_nil]
  · rw [h.labels, tableOf, tableOf, hlabels]
  · simp only [h.marks, Piece.slotsAll_append, slotsAll, hp.slots, List.append_nil]
  · rw [hnames]
    exact h.fit.distinct
  · rw [hlabels]
    exact h.fit.inRange

theorem LabelsFit.append_plain {ps : List Piece} {p : Piece} (h : LabelsFit ps) (hp : p.Plain) :
    LabelsFit (ps ++ [p]) := by
  constructor
  · simpa only [Piece.namesAll_append, namesAll, hp.names, List.append_nil] using h.distinct
  · simpa only [Piece.labelsAll_append, labelsAll, hp.labels, List.append_nil] using h.inRange

theorem emits_write {step : Encoder Unit} {cond : Prop} {bs : List UInt8} {p : Piece}
    (hstep : Encoder.Writes step cond bs) (hp : p.Plain) (hbytes : ∀ f, p.bytes f = bs) :
    Emits (Emitter.write step) cond [p] := by
  constructor
  · rintro ps ⟨code, map, labels, marks⟩ h hcond _
    refine ⟨⟨code ++ bs, map, labels, marks⟩, ?_, ?_⟩
    · simp only [Emitter.write, hstep.ok hcond code]
    · exact h.append_plain hp (code ++ bs) map (by simp [hbytes])
  · rintro ps ⟨code, map, labels, marks⟩ h hnot
    obtain ⟨fault, rest, herror, hfault⟩ :=
      hstep.refused (fun hcond => hnot ⟨hcond, h.fit.append_plain hp⟩) code
    refine ⟨fault, ⟨code ++ rest, map, labels, marks⟩, ?_, blames_of_isRefusal hfault⟩
    simp only [Emitter.write, herror]

theorem emits_place (files : FileSet) (span : Span) :
    Emits (Emitter.here files span) True [.place span] := by
  have hplain : (Piece.place span).Plain := ⟨fun _ => rfl, fun _ => rfl, rfl⟩
  constructor
  · rintro ps ⟨code, map, labels, marks⟩ h _ _
    have hrun : ∃ map', Emitter.here files span ⟨code, map, labels, marks⟩ =
        .ok () ⟨code, map', labels, marks⟩ := by
      have hhere : Emitter.here files span ⟨code, map, labels, marks⟩ =
          Emitter.record files code.size span ⟨code, map, labels, marks⟩ := rfl
      rw [hhere, Emitter.record]
      split
      · split
        · exact ⟨_, rfl⟩
        · exact ⟨_, rfl⟩
      · exact ⟨_, rfl⟩
    obtain ⟨map', hrun⟩ := hrun
    exact ⟨_, hrun, h.append_plain hplain code map' (by simp [Piece.bytes])⟩
  · intro ps e h hnot
    exact absurd ⟨trivial, h.fit.append_plain hplain⟩ hnot

/-! ## Jumps -/

theorem labelsFit_append_target {ps : List Piece} (h : LabelsFit ps) (l : Ident) :
    LabelsFit (ps ++ [.target l]) := by
  constructor
  · simpa only [Piece.namesAll_append, namesAll, Piece.names, List.append_nil] using h.distinct
  · simpa only [Piece.labelsAll_append, labelsAll, Piece.labels, List.append_nil] using h.inRange

/-- A jump to a known label is patched on the spot, any other one waits. -/
theorem emits_target (l : Ident) : Emits (Emitter.target l) True [.target l] := by
  constructor
  · rintro ps ⟨code, map, labels, marks⟩ h _ hfit
    have hsize : code.size = sizeAll ps := h.size_code
    have hlength : code.toList.length = code.size := Array.length_toList
    have hreserve : Emitter.write Encoder.reserve ⟨code, map, labels, marks⟩ =
        .ok code.size ⟨code ++ leBytes 2 0, map, labels, marks⟩ := rfl
    have htable : labels = tableOf (ps ++ [.target l]) := by
      rw [show labels = tableOf ps from h.labels]
      simp only [tableOf, Piece.labelsAll_append, labelsAll, Piece.labels, List.append_nil]
    have hslots : slotsAll 0 (ps ++ [.target l]) = slotsAll 0 ps ++ [⟨code.size, l⟩] := by
      simp only [Piece.slotsAll_append, slotsAll, Piece.slots, List.append_nil, Nat.zero_add, hsize]
    have hbytes : bytesAll (filled labels) (ps ++ [.target l]) =
        code.toList ++ leBytes 2 (filled labels l) := by
      have hcode : code.toList = bytesAll (filled labels) ps := h.code
      simp only [hcode, Piece.bytesAll_append, bytesAll, Piece.bytes, List.append_nil]
    have hmarks : marks.toList = waiting labels (slotsAll 0 ps) := h.marks
    unfold Emitter.target
    rw [bind_of_ok hreserve]
    cases hlookup : labels.lookup l with
    | some t =>
      have hreserved : (code ++ leBytes 2 0).toList = code.toList ++ [0, 0] := by simp [leBytes]
      have hslot : Code.hasSlot (code ++ leBytes 2 0) code.size = true := by
        rw [← hlength]
        exact Code.hasSlot_of_toList hreserved
      have hpatch : (Code.patch (code ++ leBytes 2 0) code.size t).toList =
          code.toList ++ (leBytes 2 t.toNat ++ []) := by
        rw [← hlength]
        exact Code.toList_patch hreserved t
      refine ⟨⟨Code.patch (code ++ leBytes 2 0) code.size t, map, labels, marks⟩, ?_, ?_⟩
      · simp [Emitter.mark, bind, EStateM.bind, hlookup, hslot, pure, EStateM.pure]
      · refine ⟨?_, htable, ?_, hfit⟩
        · simp [hbytes, hpatch, filled, hlookup]
        · simp [hmarks, hslots, waiting, hlookup]
    | none =>
      refine ⟨⟨code ++ leBytes 2 0, map, labels, marks.push ⟨code.size, l⟩⟩, ?_, ?_⟩
      · simp [Emitter.mark, bind, EStateM.bind, hlookup, pure, EStateM.pure]
      · refine ⟨?_, htable, ?_, hfit⟩
        · simp [hbytes, filled, hlookup]
        · simp [hmarks, hslots, waiting, hlookup]
  · intro ps e h hnot
    exact absurd ⟨trivial, labelsFit_append_target h.fit l⟩ hnot

/-! ## Labels -/

theorem tableOf_append_label (ps : List Piece) (name : Ident) :
    tableOf (ps ++ [.label name]) = (name, UInt16.ofNat (sizeAll ps)) :: tableOf ps := by
  simp [tableOf, Piece.labelsAll_append, labelsAll, Piece.labels]

theorem labelsFit_append_label {ps : List Piece} (h : LabelsFit ps) (name : Ident) :
    LabelsFit (ps ++ [.label name]) ↔ name ∉ namesAll ps ∧ sizeAll ps < 0x10000 := by
  have hnames : namesAll (ps ++ [.label name]) = namesAll ps ++ [name] := by
    simp only [Piece.namesAll_append, namesAll, Piece.names, List.append_nil]
  have hlabels : labelsAll 0 (ps ++ [.label name]) = labelsAll 0 ps ++ [(name, sizeAll ps)] := by
    simp only [Piece.labelsAll_append, labelsAll, Piece.labels, List.append_nil, Nat.zero_add]
  constructor
  · rintro ⟨hdistinct, hrange⟩
    rw [hnames, List.nodup_append] at hdistinct
    rw [hlabels] at hrange
    refine ⟨fun hmem => hdistinct.2.2 name hmem name (List.mem_singleton_self name) rfl, ?_⟩
    exact hrange (name, sizeAll ps) (List.mem_append_right _ (List.mem_singleton_self _))
  · rintro ⟨hfresh, hsize⟩
    refine ⟨?_, ?_⟩
    · rw [hnames, List.nodup_append]
      refine ⟨h.distinct, List.nodup_singleton name, ?_⟩
      intro a ha b hb hab
      rw [List.mem_singleton] at hb
      subst hab hb
      exact hfresh ha
    · intro entry hentry
      rw [hlabels, List.mem_append, List.mem_singleton] at hentry
      rcases hentry with hold | rfl
      · exact h.inRange entry hold
      · exact hsize

theorem extends_cons {labels : List (Ident × UInt16)} {name : Ident} (t : UInt16)
    (hfresh : labels.lookup name = none) : Extends ((name, t) :: labels) labels := by
  intro l t' hl
  have hne : (l == name) = false := by
    rw [beq_eq_false_iff_ne]
    rintro rfl
    rw [hfresh] at hl
    cases hl
  rw [List.lookup_cons, hne]
  exact hl

/-- A new label turns the code into what it would be with the label known from the start. -/
theorem Holds.label_apply {ps : List Piece} {e : Emission} (h : Holds ps e) {name : Ident}
    (hfresh : e.labels.lookup name = none) (hrange : e.code.size < 0x10000)
    {known : List (Ident × UInt16)}
    (hknown : known = (name, UInt16.ofNat e.code.size) :: e.labels) :
    Emitter.label e.code.size name e =
      .ok () ⟨(bytesAll (filled known) ps).toArray, e.map, known,
        (waiting known (slotsAll 0 ps)).toArray⟩ := by
  subst hknown
  have hcode : e.code.toList = [] ++ (bytesAll (filled e.labels) ps ++ []) := by
    rw [List.nil_append, List.append_nil]
    exact h.code
  have hsettle := settle_slotsAll (extends_cons (UInt16.ofNat e.code.size) hfresh) ps e.code [] []
    hcode
  rw [List.length_nil, ← h.marks, List.nil_append, List.append_nil] at hsettle
  simp only [Emitter.label, hfresh, Option.isSome_none, Bool.false_eq_true, if_false, hrange,
    if_true, hsettle]

/-- A new label in range is defined where it stands. A label that stands already, or stands too
far, is refused. -/
theorem emits_label (name : Ident) :
    Emits (do Emitter.label (← Emitter.offset) name) True [.label name] := by
  constructor
  · intro ps e h _ hfit
    obtain ⟨hfresh, hrange⟩ := (labelsFit_append_label h.fit name).mp hfit
    have hlookup : e.labels.lookup name = none := by
      rw [h.labels, lookup_tableOf_eq_none]
      exact hfresh
    have hoffset : Emitter.offset e = .ok e.code.size e := rfl
    rw [← h.size_code] at hrange
    have hrun := h.label_apply hlookup hrange rfl
    refine ⟨_, by rw [bind_of_ok hoffset, hrun], ?_, ?_, ?_, hfit⟩
    · simp [Piece.bytesAll_append, bytesAll, Piece.bytes]
    · simp only [tableOf_append_label, h.labels, h.size_code]
    · simp [Piece.slotsAll_append, slotsAll, Piece.slots]
  · intro ps e h hnot
    have hoffset : Emitter.offset e = .ok e.code.size e := rfl
    rw [bind_of_ok hoffset, Emitter.label]
    by_cases hold : name ∈ namesAll ps
    · have hlookup : (e.labels.lookup name).isSome = true := by
        rw [h.labels, lookup_tableOf_isSome]
        exact hold
      rw [if_pos hlookup]
      refine ⟨_, _, rfl, fun hdistinct => ?_⟩
      simp only [Piece.namesAll_append, namesAll, Piece.names, List.append_nil,
        List.nodup_append] at hdistinct
      exact hdistinct.2.2 name hold name (List.mem_singleton_self name) rfl
    · have hlookup : ¬ (e.labels.lookup name).isSome = true := by
        rw [h.labels, lookup_tableOf_isSome]
        exact hold
      have hrange : ¬ e.code.size < 0x10000 := by
        rw [h.size_code]
        exact fun hlt => hnot ⟨trivial, (labelsFit_append_label h.fit name).mpr ⟨hold, hlt⟩⟩
      rw [if_neg hlookup, if_neg hrange]
      exact ⟨_, _, rfl, trivial⟩

/-! ## Blocks -/

/-- A block whose inside is being written: its begin byte and two zeros for its length. -/
def opening : List Piece := [.byte Opcode.blockBegin.byte, .byte 0, .byte 0]

theorem sizeAll_opening (ps : List Piece) : sizeAll (ps ++ opening) = sizeAll ps + 3 := by
  simp only [Piece.sizeAll_append, opening, sizeAll, Piece.size]

theorem namesAll_opening (ps qs : List Piece) :
    namesAll (ps ++ opening ++ qs) = namesAll (ps ++ [.frame qs]) := by
  simp [Piece.namesAll_append, opening, namesAll, Piece.names]

theorem labelsAll_opening (ps qs : List Piece) :
    labelsAll 0 (ps ++ opening ++ qs) = labelsAll 0 (ps ++ [.frame qs]) := by
  rw [Piece.labelsAll_append, Piece.labelsAll_append, Piece.labelsAll_append, sizeAll_opening]
  simp [opening, labelsAll, Piece.labels]

theorem slotsAll_opening (ps qs : List Piece) :
    slotsAll 0 (ps ++ opening ++ qs) = slotsAll 0 (ps ++ [.frame qs]) := by
  rw [Piece.slotsAll_append, Piece.slotsAll_append, Piece.slotsAll_append, sizeAll_opening]
  simp [opening, slotsAll, Piece.slots]

theorem labelsFit_opening (ps qs : List Piece) :
    LabelsFit (ps ++ opening ++ qs) ↔ LabelsFit (ps ++ [.frame qs]) := by
  constructor
  · rintro ⟨hdistinct, hrange⟩
    exact ⟨namesAll_opening ps qs ▸ hdistinct, labelsAll_opening ps qs ▸ hrange⟩
  · rintro ⟨hdistinct, hrange⟩
    exact ⟨namesAll_opening ps qs ▸ hdistinct, labelsAll_opening ps qs ▸ hrange⟩

theorem blames_opening {ps qs : List Piece} {fault : Fault}
    (h : Blames (ps ++ opening ++ qs) fault) : Blames (ps ++ [.frame qs]) fault := by
  cases fault with
  | duplicateLabel l =>
    unfold Blames at h ⊢
    rwa [namesAll_opening] at h
  | _ => exact h

/-- The header of a block, before its length is known. -/
theorem Holds.open {ps : List Piece} {e : Emission} (h : Holds ps e) :
    Holds (ps ++ opening)
      ⟨e.code ++ [Opcode.blockBegin.byte, 0, 0], e.map, e.labels, e.marks⟩ := by
  have hplain : ∀ b, (Piece.byte b).Plain := fun b => ⟨fun _ => rfl, fun _ => rfl, rfl⟩
  have h1 := h.append_plain (hplain Opcode.blockBegin.byte) (e.code ++ [Opcode.blockBegin.byte])
    e.map (by simp [Piece.bytes])
  have h2 := h1.append_plain (hplain 0) (e.code ++ [Opcode.blockBegin.byte, 0]) e.map
    (by simp [Piece.bytes])
  have h3 := h2.append_plain (hplain 0) (e.code ++ [Opcode.blockBegin.byte, 0, 0]) e.map
    (by simp [Piece.bytes])
  simpa [opening] using h3

/-- The length and the end byte turn an open block into a closed one. -/
theorem Holds.close {ps qs : List Piece} {e : Emission} (h : Holds (ps ++ opening ++ qs) e)
    (hlen : sizeAll qs + 1 < 0x10000) :
    e.code.hasSlot (sizeAll ps + 1) = true ∧
    Holds (ps ++ [.frame qs])
      ⟨e.code.patch (sizeAll ps + 1) (UInt16.ofNat (sizeAll qs + 1)) ++ [Opcode.blockEnd.byte],
        e.map, e.labels, e.marks⟩ := by
  let front := bytesAll (filled e.labels) ps ++ [Opcode.blockBegin.byte]
  have hfront : front.length = sizeAll ps + 1 := by simp [front, Piece.length_bytesAll]
  have hcode : e.code.toList = front ++ 0 :: 0 :: bytesAll (filled e.labels) qs := by
    simp [h.code, front, Piece.bytesAll_append, opening, bytesAll, Piece.bytes]
  have hslot := Code.hasSlot_of_toList hcode
  have hpatch := Code.toList_patch hcode (UInt16.ofNat (sizeAll qs + 1))
  rw [hfront] at hslot hpatch
  rw [UInt16.toNat_ofNat_of_lt' hlen] at hpatch
  refine ⟨hslot, ?_, ?_, ?_, (labelsFit_opening ps qs).mp h.fit⟩
  · rw [Array.toList_appendList, hpatch]
    simp [front, Piece.bytesAll_append, bytesAll, Piece.bytes]
  · simp only [h.labels, tableOf, labelsAll_opening]
  · simp only [h.marks, slotsAll_opening]

/-- What closes a block: its length, patched into its header, and its end byte. -/
def closing (slot start : Nat) : Emitter Unit := do
  let len := (← Emitter.offset) - start + 1
  if len < 0x10000 then
    Emitter.write (Encoder.patch slot (UInt16.ofNat len))
    Emitter.write (Encoder.opcode .blockEnd)
  else
    throw (.blockTooLarge len)

theorem framed_apply (inside : Emitter Unit) (e : Emission) :
    Emitter.framed inside e = (do inside; closing (e.code.size + 1) (e.code.size + 3))
      ⟨e.code ++ [Opcode.blockBegin.byte, 0, 0], e.map, e.labels, e.marks⟩ := by
  have hheader : e.code ++ [Opcode.blockBegin.byte, 0, 0] =
      e.code ++ [Opcode.blockBegin.byte] ++ leBytes 2 0 :=
    (Code.append_append e.code [Opcode.blockBegin.byte] (leBytes 2 0)).symm
  have hslot : e.code.size + 1 = (e.code ++ [Opcode.blockBegin.byte]).size :=
    (Code.size_append e.code [Opcode.blockBegin.byte]).symm
  have hstart : e.code.size + 3 = (e.code ++ [Opcode.blockBegin.byte] ++ leBytes 2 0).size := by
    rw [Code.size_append, ← hslot, length_leBytes]
  rw [hheader, hslot, hstart]
  rfl

theorem closing_of_lt {slot start n : Nat} {e : Emission} (hn : e.code.size - start + 1 = n)
    (hlt : n < 0x10000) (hslot : e.code.hasSlot slot = true) :
    closing slot start e =
      .ok () ⟨e.code.patch slot (UInt16.ofNat n) ++ [Opcode.blockEnd.byte], e.map, e.labels,
        e.marks⟩ := by
  have hoffset : Emitter.offset e = .ok e.code.size e := rfl
  have hpatch : Emitter.write (Encoder.patch slot (UInt16.ofNat n)) e =
      .ok () ⟨e.code.patch slot (UInt16.ofNat n), e.map, e.labels, e.marks⟩ := by
    simp only [Emitter.write, Encoder.patch, hslot, if_true]
  unfold closing
  rw [bind_of_ok hoffset]
  simp only [hn]
  rw [if_pos hlt, bind_of_ok hpatch]
  rfl

theorem closing_of_ge {slot start n : Nat} {e : Emission} (hn : e.code.size - start + 1 = n)
    (hge : ¬ n < 0x10000) : closing slot start e = .error (.blockTooLarge n) e := by
  have hoffset : Emitter.offset e = .ok e.code.size e := rfl
  unfold closing
  rw [bind_of_ok hoffset]
  simp only [hn]
  rw [if_neg hge]
  rfl

theorem emits_framed {inside : Emitter Unit} {cond : Prop} {qs : List Piece}
    (h : Emits inside cond qs) :
    Emits (Emitter.framed inside) (cond ∧ sizeAll qs + 1 < 0x10000) [.frame qs] := by
  have hsize : ∀ {ps e e'}, Holds ps e → Holds (ps ++ opening ++ qs) e' →
      e'.code.size - (e.code.size + 3) + 1 = sizeAll qs + 1 := by
    intro ps e e' hps hinside
    rw [hinside.size_code, hps.size_code, Piece.sizeAll_append, sizeAll_opening]
    omega
  constructor
  · rintro ps e hps ⟨hcond, hlen⟩ hfit
    obtain ⟨e', hrun, hinside⟩ := h.ok hps.open hcond ((labelsFit_opening ps qs).mpr hfit)
    obtain ⟨hslot, hclosed⟩ := hinside.close hlen
    rw [← hps.size_code] at hslot hclosed
    refine ⟨_, ?_, hclosed⟩
    rw [framed_apply, bind_of_ok hrun, closing_of_lt (hsize hps hinside) hlen hslot]
  · intro ps e hps hnot
    by_cases hfirst : cond ∧ LabelsFit (ps ++ opening ++ qs)
    · obtain ⟨e', hrun, hinside⟩ := h.ok hps.open hfirst.1 hfirst.2
      have hlen : ¬ sizeAll qs + 1 < 0x10000 := fun hlen =>
        hnot ⟨⟨hfirst.1, hlen⟩, (labelsFit_opening ps qs).mp hfirst.2⟩
      refine ⟨.blockTooLarge (sizeAll qs + 1), e', ?_, trivial⟩
      rw [framed_apply, bind_of_ok hrun, closing_of_ge (hsize hps hinside) hlen]
    · obtain ⟨fault, e', hrun, hblame⟩ := h.refused hps.open hfirst
      refine ⟨fault, e', ?_, blames_opening hblame⟩
      rw [framed_apply, bind_of_error hrun]

/-! ## All pieces -/

mutual

theorem emits_piece (files : FileSet) (p : Piece) :
    Emits (p.emit files) (p.encodable = true ∧ p.framed = true) [p] := by
  cases p with
  | place span => exact (emits_place files span).congr (by simp [Piece.encodable, Piece.framed])
  | byte b =>
    exact (emits_write (Encoder.writes_put [b]) ⟨fun _ => rfl, fun _ => rfl, rfl⟩
      fun _ => rfl).congr (by simp [Piece.encodable, Piece.framed])
  | ident i =>
    exact (emits_write (Encoder.writes_ident i) ⟨fun _ => rfl, fun _ => rfl, rfl⟩
      fun _ => rfl).congr (by simp [Piece.encodable, Piece.framed])
  | ty t =>
    exact (emits_write (Encoder.writes_ty t) ⟨fun _ => rfl, fun _ => rfl, rfl⟩
      fun _ => rfl).congr (by simp [Piece.encodable, Piece.framed])
  | value v =>
    exact (emits_write (Encoder.writes_value v) ⟨fun _ => rfl, fun _ => rfl, rfl⟩
      fun _ => rfl).congr (by simp [Piece.encodable, Piece.framed])
  | count n =>
    exact (emits_write (Encoder.writes_entryCount n) ⟨fun _ => rfl, fun _ => rfl, rfl⟩
      fun _ => rfl).congr (by simp [Piece.encodable, Piece.framed])
  | target l => exact (emits_target l).congr (by simp [Piece.encodable, Piece.framed])
  | label name => exact (emits_label name).congr (by simp [Piece.encodable, Piece.framed])
  | frame inside =>
    refine (emits_framed (emits_pieces files inside)).congr ?_
    simp only [Piece.encodable, Piece.framed, Bool.and_eq_true, decide_eq_true_eq]
    exact ⟨fun ⟨⟨ha, hb⟩, hc⟩ => ⟨ha, hc, hb⟩, fun ⟨ha, hc, hb⟩ => ⟨⟨ha, hb⟩, hc⟩⟩

theorem emits_pieces (files : FileSet) (ps : List Piece) :
    Emits (Piece.emitAll files ps)
      (Piece.encodableAll ps = true ∧ Piece.framedAll ps = true) ps := by
  cases ps with
  | nil => exact emits_nothing.congr (by simp [Piece.encodableAll, Piece.framedAll])
  | cons p ps =>
    refine ((emits_piece files p).seq (emits_pieces files ps)).congr ?_
    simp only [Piece.encodableAll, Piece.framedAll, Bool.and_eq_true]
    exact ⟨fun ⟨⟨ha, hb⟩, hc, hd⟩ => ⟨⟨ha, hc⟩, hb, hd⟩,
      fun ⟨⟨ha, hc⟩, hb, hd⟩ => ⟨⟨ha, hb⟩, hc, hd⟩⟩

end

end BytecodeCompiler
