import BytecodeCompiler.Proofs.Code.Reading
import BytecodeCompiler.Proofs.Emission.OnePass

-- The order in which instructions are written, and where each one starts. Writing goes through the
-- instructions from the outside in, and what it tells the source map on its way is one note for
-- each instruction or operand, at the offset where that starts.

namespace BytecodeCompiler

namespace Instr

/-- How many bytes the instruction takes. -/
def size (i : Instr) : Nat := Piece.sizeAll i.layout

def isLabel : Instr → Bool
  | .label .. => true
  | _ => false

mutual

/-- The instruction and all that it is made of in the order of writing, each with the offset that it
starts at, if the instruction starts at the given one. -/
def visits (start : Nat) : Instr → List (Nat × Instr)
  | .value v s => [(start, .value v s)]
  | .wrapped ty a s => (start, .wrapped ty a s) :: visits (start + ty.bytes.length) a
  | .iterable ty is s =>
    (start, .iterable ty is s) :: visitsReversed (start + ty.bytes.length + 1) is
  | .set d ty a s =>
    (start, .set d ty a s) :: visits (start + 3 + d.name.bytes.length + ty.bytes.length) a
  | .typeAlias d ty s => [(start, .typeAlias d ty s)]
  | .mov a b s => (start, .mov a b s) :: (visits (start + 1) a ++ visits (start + 1 + a.size) b)
  | .unary op a s => (start, .unary op a s) :: visits (start + 2 + Value.nil.bytes.length) a
  | .binary op a b s =>
    (start, .binary op a b s) :: (visits (start + 2) b ++ visits (start + 2 + b.size) a)
  | .collection op a b s =>
    (start, .collection op a b s) :: (visits (start + 1) a ++ visits (start + 1 + a.size) b)
  | .indexGet a nilSafe b s =>
    (start, .indexGet a nilSafe b s) :: (visits (start + 2) a ++ visits (start + 2 + a.size) b)
  | .indexSet a b c s =>
    (start, .indexSet a b c s) :: (visits (start + 1) a ++ visits (start + 1 + a.size) b ++
      visits (start + 1 + a.size + b.size) c)
  | .length a s => (start, .length a s) :: visits (start + 1) a
  | .attrGet name nilSafe a s => (start, .attrGet name nilSafe a s) :: visits (start + 2) a
  | .attrSet nilSafe name a b s =>
    (start, .attrSet nilSafe name a b s) :: (visits (start + 2 + name.bytes.length) a ++
      visits (start + 2 + name.bytes.length + a.size) b)
  | .cast ty a s => (start, .cast ty a s) :: visits (start + 1 + ty.bytes.length) a
  | .call a b s => (start, .call a b s) :: (visits (start + 1) a ++ visits (start + 1 + a.size) b)
  | .ternary a b c s =>
    (start, .ternary a b c s) :: (visits (start + 1) c ++ visits (start + 1 + c.size) b ++
      visits (start + 1 + c.size + b.size) a)
  | .compareJump a b l s =>
    (start, .compareJump a b l s) :: (visits (start + 1) a ++ visits (start + 1 + a.size) b)
  | .jump l s => [(start, .jump l s)]
  | .label l s => [(start, .label l s)]
  | .lambda f is s =>
    (start, .lambda f is s) :: visitsAll (start + 1 + f.toTy.bytes.length + 3) is
  | .block is s => (start, .block is s) :: visitsAll (start + 3) is
  | .ret a s => (start, .ret a s) :: visits (start + 1) a
  | .use mode package imports s => [(start, .use mode package imports s)]

def visitsAll (start : Nat) : List Instr → List (Nat × Instr)
  | [] => []
  | i :: is => visits start i ++ visitsAll (start + i.size) is

def visitsReversed (start : Nat) : List Instr → List (Nat × Instr)
  | [] => []
  | i :: is => visitsReversed start is ++ visits (start + Piece.sizeAll (layoutReversed is)) i

end

end Instr

/-! ## The order of visits -/

/-- Visits in the order of their offsets. What is no label takes a byte of its own, so that whatever
is visited later starts later. -/
structure InOrder (lo hi : Nat) (vs : List (Nat × Instr)) : Prop where
  le : lo ≤ hi
  bounds : ∀ v ∈ vs, lo ≤ v.1 ∧ v.1 ≤ hi ∧ (v.2.isLabel = false → v.1 < hi)
  sorted : vs.Pairwise fun v w => v.1 ≤ w.1 ∧ (v.2.isLabel = false → v.1 < w.1)

namespace InOrder

variable {lo mid hi : Nat} {vs ws : List (Nat × Instr)}

theorem nil (lo : Nat) : InOrder lo lo [] := ⟨Nat.le_refl lo, List.forall_mem_nil _, .nil⟩

theorem append (h : InOrder lo mid vs) (h' : InOrder mid hi ws) : InOrder lo hi (vs ++ ws) where
  le := Nat.le_trans h.le h'.le
  bounds v hv := by
    have hle := h.le
    have hle' := h'.le
    rcases List.mem_append.mp hv with hv | hv
    · obtain ⟨hlo, hhi, hlabel⟩ := h.bounds v hv
      exact ⟨hlo, by omega, fun hl => by have := hlabel hl; omega⟩
    · obtain ⟨hlo, hhi, hlabel⟩ := h'.bounds v hv
      exact ⟨by omega, hhi, hlabel⟩
  sorted := by
    refine List.pairwise_append.mpr ⟨h.sorted, h'.sorted, fun v hv w hw => ?_⟩
    obtain ⟨-, hv, hlabel⟩ := h.bounds v hv
    obtain ⟨hw, -, -⟩ := h'.bounds w hw
    exact ⟨by omega, fun hl => by have := hlabel hl; omega⟩

/-- An instruction before its parts. The bytes in front of the parts are its own. -/
theorem node (i : Instr) (h : InOrder mid hi vs) (hmid : lo < mid) {last : Nat}
    (hlast : hi ≤ last) : InOrder lo last ((lo, i) :: vs) where
  le := by
    have hle := h.le
    omega
  bounds v hv := by
    have hle := h.le
    rcases List.mem_cons.mp hv with rfl | hv
    · exact ⟨Nat.le_refl lo, by omega, fun _ => by omega⟩
    · obtain ⟨hlo, hhi, hless⟩ := h.bounds v hv
      exact ⟨by omega, by omega, fun hl => by have := hless hl; omega⟩
  sorted := by
    refine List.pairwise_cons.mpr ⟨fun w hw => ?_, h.sorted⟩
    obtain ⟨hw, -, -⟩ := h.bounds w hw
    exact ⟨by omega, fun _ => by omega⟩

/-- An instruction without parts. -/
theorem leaf (i : Instr) (hlt : lo < hi) : InOrder lo hi [(lo, i)] :=
  node i (nil hi) hlt (Nat.le_refl hi)

end InOrder

namespace Instr

open Piece (sizeAll sizeAll_append)

mutual

theorem visits_inOrder (start : Nat) (i : Instr) :
    InOrder start (start + i.size) (i.visits start) := by
  cases i with
  | value v s =>
    have hty := Decoder.one_le_length_ty v.ty
    refine .leaf _ ?_
    simp only [size, layout, sizeAll, Piece.size, Value.bytes, List.length_append]
    omega
  | label l s =>
    refine ⟨Nat.le_add_right _ _, fun v hv => ?_, List.pairwise_singleton _ _⟩
    obtain rfl := List.mem_singleton.mp hv
    exact ⟨Nat.le_refl _, Nat.le_add_right _ _, fun h => nomatch h⟩
  | typeAlias d ty s | jump l s | use mode package imports s =>
    refine .leaf _ ?_
    simp only [size, layout, sizeAll, Piece.size, sizeAll_append, Piece.opcode]
    omega
  | wrapped ty a s =>
    have hty := Decoder.one_le_length_ty ty
    refine .node _ (visits_inOrder _ a) (by omega) ?_
    simp only [size, layout, sizeAll, Piece.size, sizeAll_append]
    omega
  | set d ty a s | unary op a s | length a s | attrGet name nilSafe a s | cast ty a s | ret a s =>
    refine .node _ (visits_inOrder _ a) (by omega) ?_
    simp only [size, layout, sizeAll, Piece.size, sizeAll_append, Piece.opcode, Piece.bool,
      Piece.declaration]
    omega
  | mov a b s | binary op b a s | indexGet a nilSafe b s | attrSet nilSafe name a b s | call a b s
  | compareJump a b l s =>
    refine .node _ ((visits_inOrder _ a).append (visits_inOrder _ b)) (by omega) ?_
    simp only [size, layout, sizeAll, Piece.size, sizeAll_append, Piece.opcode, Piece.bool]
    omega
  | collection op a b s =>
    refine .node _ ((visits_inOrder _ a).append (visits_inOrder _ b)) (by omega) ?_
    cases op <;>
    · simp only [size, layout, sizeAll, Piece.size, sizeAll_append, Piece.opcode]
      omega
  | indexSet a b c s | ternary c b a s =>
    refine .node _ (((visits_inOrder _ a).append (visits_inOrder _ b)).append
      (visits_inOrder _ c)) (by omega) ?_
    simp only [size, layout, sizeAll, Piece.size, sizeAll_append, Piece.opcode]
    omega
  | iterable ty is s =>
    refine .node _ (visitsReversed_inOrder _ is) (by omega) ?_
    simp only [size, layout, sizeAll, Piece.size, sizeAll_append]
    omega
  | lambda f is s | block is s =>
    refine .node _ (visitsAll_inOrder _ is) (by omega) ?_
    simp only [size, layout, sizeAll, Piece.size, Piece.opcode]
    omega

theorem visitsAll_inOrder (start : Nat) (is : List Instr) :
    InOrder start (start + sizeAll (layoutAll is)) (visitsAll start is) := by
  cases is with
  | nil => exact .nil start
  | cons i is =>
    have hothers := visitsAll_inOrder (start + i.size) is
    rw [Nat.add_assoc] at hothers
    rw [layoutAll, sizeAll_append]
    exact (visits_inOrder start i).append hothers

theorem visitsReversed_inOrder (start : Nat) (is : List Instr) :
    InOrder start (start + sizeAll (layoutReversed is)) (visitsReversed start is) := by
  cases is with
  | nil => exact .nil start
  | cons i is =>
    have hfirst := visits_inOrder (start + sizeAll (layoutReversed is)) i
    rw [Nat.add_assoc] at hfirst
    rw [layoutReversed, sizeAll_append]
    exact (visitsReversed_inOrder start is).append hfirst

end

end Instr

/-! ## Places -/

namespace Piece

mutual

/-- What the piece says about where bytes came from, if it starts at the given offset. -/
def places (start : Nat) : Piece → List (Nat × Span)
  | .place span => [(start, span)]
  | .frame inside => placesAll (start + 3) inside
  | _ => []

def placesAll (start : Nat) : List Piece → List (Nat × Span)
  | [] => []
  | p :: ps => p.places start ++ placesAll (start + p.size) ps

end

theorem placesAll_append (start : Nat) (ps qs : List Piece) :
    placesAll start (ps ++ qs) = placesAll start ps ++ placesAll (start + sizeAll ps) qs := by
  induction ps generalizing start with
  | nil => simp only [List.nil_append, placesAll, sizeAll, Nat.add_zero]
  | cons p ps ih =>
    simp only [List.cons_append, placesAll, sizeAll, ih, List.append_assoc, Nat.add_assoc]

theorem placesAll_idents (start : Nat) (is : List Ident) :
    placesAll start (is.map .ident) = [] := by
  induction is generalizing start with
  | nil => rfl
  | cons i is ih => simp [placesAll, places, ih]

end Piece

namespace Instr

open Piece (placesAll sizeAll)

/-- Where a visit came from. -/
def place (visit : Nat × Instr) : Nat × Span := (visit.1, visit.2.span)

mutual

/-- The pieces of an instruction name the places of what is visited, in the order of the visits. -/
theorem placesAll_layout (start : Nat) (i : Instr) :
    placesAll start i.layout = (i.visits start).map place := by
  cases i with
  | collection op a b s =>
    cases op <;>
    simp [layout, visits, placesAll, Piece.places, Piece.placesAll_append, Piece.opcode, Piece.size,
      size, place, span, placesAll_layout _ a, placesAll_layout _ b]
  | value | wrapped | iterable | set | typeAlias | mov | unary | binary | indexGet | indexSet
  | length | attrGet | attrSet | cast | call | ternary | compareJump | jump | label | lambda | block
  | ret | use =>
    simp [layout, visits, placesAll, Piece.places, Piece.placesAll_append, Piece.placesAll_idents,
      Piece.opcode, Piece.bool, Piece.declaration, Piece.size, size, place, span, placesAll_layout,
      placesAll_layoutAll, placesAll_layoutReversed]

theorem placesAll_layoutAll (start : Nat) (is : List Instr) :
    placesAll start (layoutAll is) = (visitsAll start is).map place := by
  cases is with
  | nil => rfl
  | cons i is =>
    simp only [layoutAll, visitsAll, Piece.placesAll_append, List.map_append, size,
      placesAll_layout start i, placesAll_layoutAll _ is]

theorem placesAll_layoutReversed (start : Nat) (is : List Instr) :
    placesAll start (layoutReversed is) = (visitsReversed start is).map place := by
  cases is with
  | nil => rfl
  | cons i is =>
    simp only [layoutReversed, visitsReversed, Piece.placesAll_append, List.map_append,
      placesAll_layoutReversed start is, placesAll_layout _ i]

end

end Instr

/-! ## Notes -/

/-- Note in a source map where the bytes at an offset came from. A span that points nowhere or into
a file that is not registered is not noted. -/
def SourceMap.note (files : FileSet) (map : SourceMap) (place : Nat × Span) : SourceMap :=
  if place.2.isValid then
    match files.name? place.2.file with
    | some name => (map.add place.1 place.2 name).2
    | none => map
  else map

theorem Code.size_patch (code : Code) (slot : Nat) (value : UInt16) :
    (code.patch slot value).size = code.size := by
  simp [Code.patch]

theorem size_settle (labels : List (Ident × UInt16)) (code : Code) (ms : List Mark) :
    (settle labels code ms).code.size = code.size := by
  induction ms generalizing code with
  | nil => rfl
  | cons m ms ih =>
    unfold settle
    split
    · exact ih code
    · split
      · rw [ih, Code.size_patch]
      · rfl

open Piece (placesAll sizeAll)

/-- A step that succeeds writes as many bytes as the pieces have, and notes their places. -/
def Tracks (files : FileSet) (step : Emitter Unit) (ps : List Piece) : Prop :=
  ∀ e e', step e = .ok () e' → e'.code.size = e.code.size + sizeAll ps ∧
    e'.map = (placesAll e.code.size ps).foldl (SourceMap.note files) e.map

section Tracks

variable {files : FileSet} {ps qs : List Piece}

theorem Tracks.seq {a b : Emitter Unit} (ha : Tracks files a ps) (hb : Tracks files b qs) :
    Tracks files (do a; b) (ps ++ qs) := by
  intro e e'' h
  obtain ⟨_, e', hfirst, hlast⟩ := bind_eq_ok h
  obtain ⟨hsize, hmap⟩ := ha e e' hfirst
  obtain ⟨hsize', hmap'⟩ := hb e' e'' hlast
  constructor
  · rw [hsize', hsize, Piece.sizeAll_append, Nat.add_assoc]
  · rw [hmap', hmap, hsize, Piece.placesAll_append, List.foldl_append]

theorem tracks_write {step : Encoder Unit} {cond : Prop} {bs : List UInt8} {p : Piece}
    (hstep : Encoder.Writes step cond bs) (hsize : p.size = bs.length)
    (hplaces : ∀ start, p.places start = []) : Tracks files (Emitter.write step) [p] := by
  rintro ⟨code, map, labels, marks⟩ e' h
  simp only [Emitter.write] at h
  split at h
  · rename_i code' hrun
    cases h
    obtain ⟨-, rfl⟩ := hstep.of_ok hrun
    simp [sizeAll, placesAll, hsize, hplaces, Code.size_append]
  · cases h

theorem tracks_here (span : Span) : Tracks files (Emitter.here files span) [.place span] := by
  rintro ⟨code, map, labels, marks⟩ e' h
  have hhere : Emitter.here files span ⟨code, map, labels, marks⟩ =
      .ok () ⟨code, map.note files (code.size, span), labels, marks⟩ := by
    have hrecord : Emitter.here files span ⟨code, map, labels, marks⟩ =
        Emitter.record files code.size span ⟨code, map, labels, marks⟩ := rfl
    rw [hrecord, Emitter.record, SourceMap.note]
    by_cases hvalid : span.isValid = true
    · rw [if_pos hvalid, if_pos hvalid]
      cases files.name? span.file <;> rfl
    · rw [if_neg hvalid, if_neg hvalid]
  rw [hhere] at h
  cases h
  exact ⟨rfl, rfl⟩

theorem tracks_target (l : Ident) : Tracks files (Emitter.target l) [.target l] := by
  rintro ⟨code, map, labels, marks⟩ e' h
  obtain ⟨_, _, hreserve, hmark⟩ := bind_eq_ok h
  cases hreserve
  obtain ⟨_, _, hmark, hpure⟩ := bind_eq_ok hmark
  cases hpure
  simp only [Emitter.mark] at hmark
  split at hmark
  · split at hmark
    · cases hmark
      simp [Code.size_patch, Code.size_append, sizeAll, Piece.size, placesAll, Piece.places]
    · cases hmark
  · cases hmark
    simp [Code.size_append, sizeAll, Piece.size, placesAll, Piece.places]

theorem tracks_label (name : Ident) :
    Tracks files (do Emitter.label (← Emitter.offset) name) [.label name] := by
  rintro ⟨code, map, labels, marks⟩ e' h
  obtain ⟨_, _, hoffset, hlabel⟩ := bind_eq_ok h
  cases hoffset
  simp only [Emitter.label] at hlabel
  split at hlabel
  · cases hlabel
  · split at hlabel
    · have hsize := size_settle ((name, UInt16.ofNat code.size) :: labels) code marks.toList
      split at hlabel
      · rename_i hsettle
        cases hlabel
        rw [hsettle] at hsize
        simp [hsize, sizeAll, Piece.size, placesAll, Piece.places]
      · cases hlabel
    · cases hlabel

omit files in
/-- Closing a block adds one byte. -/
theorem size_of_closing {slot start : Nat} {e e' : Emission}
    (h : closing slot start e = .ok () e') :
    e'.code.size = e.code.size + 1 ∧ e'.map = e.map := by
  by_cases hlen : e.code.size - start + 1 < 0x10000
  · by_cases hslot : e.code.hasSlot slot = true
    · rw [closing_of_lt rfl hlen hslot] at h
      cases h
      exact ⟨by rw [Code.size_append, Code.size_patch, List.length_singleton], rfl⟩
    · obtain ⟨_, _, hoffset, hclose⟩ := bind_eq_ok h
      cases hoffset
      simp only [if_pos hlen] at hclose
      obtain ⟨_, _, hpatch, -⟩ := bind_eq_ok hclose
      simp only [Emitter.write, Encoder.patch, if_neg hslot] at hpatch
      cases hpatch
  · rw [closing_of_ge rfl hlen] at h
    cases h

theorem tracks_framed {inside : Emitter Unit} (h : Tracks files inside ps) :
    Tracks files (Emitter.framed inside) [.frame ps] := by
  intro e e' hrun
  rw [framed_apply] at hrun
  obtain ⟨_, e₁, hinside, hclosing⟩ := bind_eq_ok hrun
  obtain ⟨hsize, hmap⟩ := h _ e₁ hinside
  obtain ⟨hsize', hmap'⟩ := size_of_closing hclosing
  have hstart : (e.code ++ [Opcode.blockBegin.byte, 0, 0]).size = e.code.size + 3 :=
    Code.size_append _ _
  rw [hstart] at hsize hmap
  constructor
  · rw [hsize', hsize]
    simp only [sizeAll, Piece.size]
    omega
  · rw [hmap', hmap]
    simp only [placesAll, Piece.places, List.append_nil]

mutual

theorem tracks_piece (files : FileSet) (p : Piece) : Tracks files (p.emit files) [p] := by
  cases p with
  | place span => exact tracks_here span
  | byte b => exact tracks_write (Encoder.writes_put [b]) rfl fun _ => rfl
  | ident i => exact tracks_write (Encoder.writes_ident i) rfl fun _ => rfl
  | ty t => exact tracks_write (Encoder.writes_ty t) rfl fun _ => rfl
  | value v => exact tracks_write (Encoder.writes_value v) rfl fun _ => rfl
  | count n => exact tracks_write (Encoder.writes_entryCount n) rfl fun _ => rfl
  | target l => exact tracks_target l
  | label name => exact tracks_label name
  | frame inside => exact tracks_framed (tracks_pieces files inside)

theorem tracks_pieces (files : FileSet) (ps : List Piece) :
    Tracks files (Piece.emitAll files ps) ps := by
  cases ps with
  | nil =>
    intro e e' h
    cases h
    exact ⟨rfl, rfl⟩
  | cons p ps => exact (tracks_piece files p).seq (tracks_pieces files ps)

end

end Tracks

/-- The source map of a program is made by noting where each visit came from, in order. -/
theorem map_of_assembled {files : FileSet} {body : List Instr} {code : Code} {map : SourceMap}
    (h : Instr.assemble files body = .ok (code, map)) :
    map = ((Instr.visitsAll 3 body).map Instr.place).foldl (SourceMap.note files) .empty := by
  unfold Instr.assemble at h
  split at h
  · rename_i e hrun
    rw [emitBlock_eq_layout] at hrun
    obtain ⟨-, hmap⟩ := tracks_piece files (Instr.program body) _ e hrun
    have hplaces : placesAll 0 [Instr.program body] =
        (Instr.visitsAll 3 body).map Instr.place := by
      rw [← Instr.placesAll_layoutAll]
      exact List.append_nil _
    have hmap' : e.map = map := by
      unfold Emission.finish at h
      split at h
      · cases h
        rfl
      · cases h
    rw [← hmap', hmap, ← hplaces]
    rfl
  · cases h

end BytecodeCompiler
