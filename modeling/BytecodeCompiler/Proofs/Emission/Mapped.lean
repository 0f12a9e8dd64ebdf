import BytecodeCompiler.Proofs.Emission.Decoded
import BytecodeCompiler.Proofs.Emission.Visits
import BytecodeCompiler.Proofs.SourceMap.Recording
import Mathlib.Data.List.Induction

-- The source map of a program. It has one entry for each offset at which something starts that has
-- a place in a registered file. Where several things start at one offset, the first one counts, and
-- all but the last of them are labels.

namespace BytecodeCompiler

/-! ## What is mapped -/

/-- Whether the span points into a registered file. -/
def Span.isLocated (files : FileSet) (span : Span) : Bool :=
  span.isValid && (files.name? span.file).isSome

theorem Span.isLocated_iff {files : FileSet} {span : Span} :
    span.isLocated files = true ↔
      span.isValid = true ∧ ∃ name, files.name? span.file = some name := by
  rw [Span.isLocated, Bool.and_eq_true, Option.isSome_iff_exists]

namespace SourceMap

variable {files : FileSet} (m : SourceMap) {offset : Nat} {span : Span} {name : String}

theorem note_of_isLocated (hvalid : span.isValid = true)
    (hname : files.name? span.file = some name) :
    m.note files (offset, span) = (m.add offset span name).2 := by
  simp [note, hvalid, hname]

theorem note_of_not_isLocated (h : span.isLocated files = false) :
    m.note files (offset, span) = m := by
  unfold note
  split
  · rename_i hvalid
    have hnone : files.name? span.file = none := by
      simpa [Span.isLocated, hvalid] using h
    simp [hnone]
  · rfl

end SourceMap

/-- The visits that are mapped: those that have a place, and of those at one offset the first. -/
def mapped (files : FileSet) (visits : List (Nat × Instr)) : List (Nat × Instr) :=
  firstsBy Prod.fst (visits.filter (·.2.span.isLocated files))

/-- The names of the files of visits, each where it first appears. -/
def sourcesOf (files : FileSet) (visits : List (Nat × Instr)) : List String :=
  firstsBy id (visits.filterMap fun v => files.name? v.2.span.file)

/-- The entry of a source map says where the visit starts and where it came from. -/
structure Mapping.Maps (files : FileSet) (sources : List String) (m : Mapping)
    (v : Nat × Instr) : Prop where
  offset : m.offset.toNat = v.1
  file : ∃ name, files.name? v.2.span.file = some name ∧ sources[m.file.toNat]? = some name
  line : m.line = v.2.span.line
  colStart : m.colStart = v.2.span.col
  colEnd : m.colEnd.toNat = v.2.span.col.toNat + v.2.span.len.toNat

/-- The entry is what is recorded for the visit. A column that is too large starts over. -/
structure Mapping.Records (files : FileSet) (sources : List String) (m : Mapping)
    (v : Nat × Instr) : Prop where
  offset : m.offset.toNat = v.1
  file : ∃ name, files.name? v.2.span.file = some name ∧ sources[m.file.toNat]? = some name
  line : m.line = v.2.span.line
  colStart : m.colStart = v.2.span.col
  colEnd : m.colEnd = v.2.span.colEnd

theorem Mapping.Records.maps {files : FileSet} {sources : List String} {m : Mapping}
    {v : Nat × Instr} (h : m.Records files sources v)
    (hcol : v.2.span.col.toNat + v.2.span.len.toNat < 0x100000000) : m.Maps files sources v := by
  refine ⟨h.offset, h.file, h.line, h.colStart, ?_⟩
  rw [h.colEnd, Span.colEnd, UInt32.toNat_add]
  exact Nat.mod_eq_of_lt hcol

/-- More sources at the end change nothing for the entries that are there. -/
theorem Mapping.Records.more {files : FileSet} {sources sources' : List String} {m : Mapping}
    {v : Nat × Instr} (h : m.Records files sources v) (hmore : sources <+: sources') :
    m.Records files sources' v := by
  obtain ⟨name, hname, hsource⟩ := h.file
  obtain ⟨rest, rfl⟩ := hmore
  refine ⟨h.offset, ⟨name, hname, ?_⟩, h.line, h.colStart, h.colEnd⟩
  rw [List.getElem?_append_left (List.getElem?_eq_some_iff.mp hsource).1, hsource]

theorem sourcesOf_concat {files : FileSet} (visits : List (Nat × Instr)) {v : Nat × Instr}
    {name : String} (hname : files.name? v.2.span.file = some name) :
    sourcesOf files (visits ++ [v]) =
      if name ∈ sourcesOf files visits then sourcesOf files visits
      else sourcesOf files visits ++ [name] := by
  have hlast : [v].filterMap (fun v => files.name? v.2.span.file) = [name] := by simp [hname]
  rw [sourcesOf, List.filterMap_append, hlast, firstsBy_concat, List.map_id, id_eq]
  rfl

/-- The source map has exactly the entries of the visits, in order. -/
structure SourceMap.Lists (files : FileSet) (map : SourceMap) (visits : List (Nat × Instr)) :
    Prop where
  sources : map.sources.toList = sourcesOf files visits
  mappings : List.Forall₂ (Mapping.Maps files map.sources.toList) map.mappings.toList visits

/-- The source map has exactly the entries that are recorded for the visits, in order. -/
structure SourceMap.Records (files : FileSet) (map : SourceMap) (visits : List (Nat × Instr)) :
    Prop where
  sources : map.sources.toList = sourcesOf files visits
  mappings : List.Forall₂ (Mapping.Records files map.sources.toList) map.mappings.toList visits

section Mapped

variable {files : FileSet} {visits : List (Nat × Instr)}

theorem mapped_concat {v : Nat × Instr} (h : v.2.span.isLocated files = true) :
    mapped files (visits ++ [v]) =
      if v.1 ∈ (mapped files visits).map Prod.fst then mapped files visits
      else mapped files visits ++ [v] := by
  rw [mapped, List.filter_append, List.filter_singleton, h]
  exact firstsBy_concat _ _ _

theorem increasing_mapped (h : visits.Pairwise fun v w => v.1 ≤ w.1) :
    (mapped files visits).Pairwise fun v w => v.1 < w.1 := by
  have hsub : (mapped files visits).Sublist visits :=
    (firstsBy_sublist _ _).trans List.filter_sublist
  have hkeys : (mapped files visits).Pairwise fun v w => v.1 ≠ w.1 :=
    List.pairwise_map.mp (nodup_map_firstsBy Prod.fst _)
  refine ((h.sublist hsub).and hkeys).imp ?_
  rintro v w ⟨hle, hne⟩
  omega

/-- There are no more sources than entries, and no more entries than offsets. -/
theorem length_sourcesOf_mapped {bound : Nat} (hbound : ∀ v ∈ mapped files visits, v.1 < bound) :
    (sourcesOf files (mapped files visits)).length ≤ bound := by
  calc (sourcesOf files (mapped files visits)).length
      ≤ ((mapped files visits).filterMap fun v => files.name? v.2.span.file).length :=
        (firstsBy_sublist _ _).length_le
    _ ≤ (mapped files visits).length := List.length_filterMap_le _ _
    _ ≤ bound := length_le_of_nodup_map (nodup_map_firstsBy Prod.fst _) hbound

theorem SourceMap.Lists.offsets {map : SourceMap} (h : map.Lists files visits) :
    map.mappings.toList.map (·.offset.toNat) = visits.map Prod.fst :=
  map_offset_of_forall₂ (fun _ _ hm => hm.offset) h.mappings

theorem SourceMap.Records.offsets {map : SourceMap} (h : map.Records files visits) :
    map.mappings.toList.map (·.offset.toNat) = visits.map Prod.fst :=
  map_offset_of_forall₂ (fun _ _ hm => hm.offset) h.mappings

/-- One more entry, at an offset that is after the others. -/
theorem SourceMap.Records.push {map : SourceMap} {v : Nat × Instr} {name : String}
    (h : map.Records files (mapped files visits)) (hname : files.name? v.2.span.file = some name)
    (hless : ∀ w ∈ mapped files visits, w.1 < v.1) (hbound : v.1 < 0x100000000) :
    ((map.source name).2.push ⟨UInt32.ofNat v.1, (map.source name).1, v.2.span.line, v.2.span.col,
      v.2.span.colEnd⟩).Records files (mapped files visits ++ [v]) := by
  have hsize : map.sources.size < 0x100000000 := by
    have hlength := length_sourcesOf_mapped hless
    rw [← h.sources, Array.length_toList] at hlength
    omega
  obtain ⟨-, hsources, hindex⟩ := SourceMap.source_spec map name hsize
  constructor
  · rw [sourcesOf_concat _ hname, ← h.sources]
    exact hsources
  · refine SourceMap.forall₂_push (R := Mapping.Records files) map
      (fun hmore he => he.more hmore) hsize h.mappings ?_
    exact ⟨UInt32.toNat_ofNat_of_lt' hbound, ⟨name, hname, hindex⟩, rfl, rfl, rfl⟩

/-- One more visit, at an offset that is not before the others. -/
theorem SourceMap.Records.note {map : SourceMap} {v : Nat × Instr}
    (h : map.Records files (mapped files visits))
    (hsorted : (visits ++ [v]).Pairwise fun v w => v.1 ≤ w.1)
    (hbound : ∀ w ∈ visits ++ [v], w.1 < 0x100000000) :
    (map.note files (Instr.place v)).Records files (mapped files (visits ++ [v])) := by
  obtain ⟨hbefore, -, hafter⟩ := List.pairwise_append.mp hsorted
  have hinc : ((mapped files visits).map Prod.fst).Pairwise (· < ·) :=
    List.pairwise_map.mpr (increasing_mapped hbefore)
  have hle : ∀ o ∈ (mapped files visits).map Prod.fst, o ≤ v.1 := by
    intro o ho
    obtain ⟨w, hw, rfl⟩ := List.mem_map.mp ho
    have hvisit := ((firstsBy_sublist _ _).trans List.filter_sublist).subset hw
    exact hafter w hvisit v List.mem_cons_self
  have haccepts : map.accepts (UInt32.ofNat v.1) = true ↔
      v.1 ∉ (mapped files visits).map Prod.fst := by
    rw [SourceMap.accepts_iff map (hbound v (by simp)), h.offsets, forall_getLast?_lt_iff hinc]
    constructor
    · intro hless hmem
      exact Nat.lt_irrefl _ (hless v.1 hmem)
    · intro hnew o ho
      exact Nat.lt_of_le_of_ne (hle o ho) fun heq => hnew (heq ▸ ho)
  have hplace : Instr.place v = (v.1, v.2.span) := rfl
  rw [hplace]
  cases hlocated : v.2.span.isLocated files with
  | false =>
    have hmapped : mapped files (visits ++ [v]) = mapped files visits := by
      simp [mapped, List.filter_append, hlocated]
    rw [hmapped, SourceMap.note_of_not_isLocated map hlocated]
    exact h
  | true =>
    obtain ⟨hvalid, name, hname⟩ := Span.isLocated_iff.mp hlocated
    rw [mapped_concat hlocated, SourceMap.note_of_isLocated map hvalid hname]
    by_cases hmem : v.1 ∈ (mapped files visits).map Prod.fst
    · rw [if_pos hmem, SourceMap.add_of_not_accepts map (fun ha => haccepts.mp ha.2 hmem)]
      exact h
    · rw [if_neg hmem, SourceMap.add_of_accepts map hvalid (haccepts.mpr hmem)]
      refine h.push hname (fun w hw => ?_) (hbound v (by simp))
      have hwle := hle w.1 (List.mem_map_of_mem hw)
      have hne : w.1 ≠ v.1 := fun heq => hmem (heq ▸ List.mem_map_of_mem hw)
      omega

/-- Noting visits in order, with offsets that fit, records the first ones. -/
theorem records_of_notes (hsorted : visits.Pairwise fun v w => v.1 ≤ w.1)
    (hbound : ∀ v ∈ visits, v.1 < 0x100000000) :
    ((visits.map Instr.place).foldl (SourceMap.note files) .empty).Records files
      (mapped files visits) := by
  induction visits using List.reverseRecOn with
  | nil => exact ⟨rfl, .nil⟩
  | append_singleton visits v ih =>
    obtain ⟨hbefore, -, -⟩ := List.pairwise_append.mp hsorted
    have hvisits := ih hbefore fun w hw => hbound w (List.mem_append_left _ hw)
    rw [List.map_append, List.foldl_append]
    exact hvisits.note hsorted hbound

/-- With columns that fit, the entries say where the visits came from. -/
theorem lists_of_notes (hsorted : visits.Pairwise fun v w => v.1 ≤ w.1)
    (hbound : ∀ v ∈ visits, v.1 < 0x100000000)
    (hcols : ∀ v ∈ visits, v.2.span.col.toNat + v.2.span.len.toNat < 0x100000000) :
    ((visits.map Instr.place).foldl (SourceMap.note files) .empty).Lists files
      (mapped files visits) := by
  obtain ⟨hsources, hmappings⟩ := records_of_notes hsorted hbound
  obtain ⟨hlength, hrecords⟩ := List.forall₂_iff_zip.mp hmappings
  refine ⟨hsources, List.forall₂_iff_zip.mpr ⟨hlength, fun {m v} hmem => ?_⟩⟩
  have hv := ((firstsBy_sublist _ _).trans List.filter_sublist).subset (List.of_mem_zip hmem).2
  exact (hrecords hmem).maps (hcols v hv)

/-- A visit that has a place but no entry comes after another one at its offset that has a place. -/
theorem mem_mapped_or {before after : List (Nat × Instr)} {v : Nat × Instr}
    (hv : v.2.span.isLocated files = true) :
    v ∈ mapped files (before ++ v :: after) ∨
      ∃ w ∈ before, w.1 = v.1 ∧ w.2.span.isLocated files = true := by
  by_cases hmem : v.1 ∈ (mapped files before).map Prod.fst
  · obtain ⟨w, hw, heq⟩ := List.mem_map.mp hmem
    obtain ⟨hbefore, hlocated⟩ := List.mem_filter.mp ((firstsBy_sublist _ _).subset hw)
    exact Or.inr ⟨w, hbefore, heq, hlocated⟩
  · left
    have hprefix : mapped files (before ++ [v]) <+: mapped files (before ++ [v] ++ after) := by
      rw [mapped, mapped, List.filter_append _ after]
      exact firstsBy_prefix _ _ _
    rw [List.append_assoc, List.singleton_append] at hprefix
    apply hprefix.subset
    rw [mapped_concat hv, if_neg hmem]
    simp

end Mapped

/-- Assembling records the visits of the program. -/
theorem records_of_assembled {files : FileSet} {body : List Instr} {code : Code} {map : SourceMap}
    (h : Instr.assemble files body = .ok (code, map)) :
    map.Records files (mapped files (Instr.visitsAll 3 body)) := by
  obtain ⟨-, hbounds, hordered⟩ :
      InOrder 3 (3 + Piece.sizeAll (Instr.layoutAll body)) (Instr.visitsAll 3 body) :=
    Instr.visitsAll_inOrder 3 body
  rw [map_of_assembled h]
  refine records_of_notes (hordered.imp fun hvw => hvw.1) fun v hv => ?_
  have hframed := (fits_of_assembled h).1.framed
  simp only [Instr.program, Piece.framed, Bool.and_eq_true, decide_eq_true_eq] at hframed
  have hv' := (hbounds v hv).2.1
  omega

/-- The source map of a program is exactly the first visit with a place for each offset. Its sources
are the files of these visits, each where it first appears. Of two visits that are no labels the
second starts after the first, so a visit that is no label and has a place has its own entry unless
a label with a place stands right before it. -/
theorem mappings_of_assembled {files : FileSet} {body : List Instr} {code : Code} {map : SourceMap}
    (h : Instr.assemble files body = .ok (code, map))
    (hcols : ∀ v ∈ Instr.visitsAll 3 body,
      v.2.span.col.toNat + v.2.span.len.toNat < 0x100000000) :
    let visits := Instr.visitsAll 3 body
    map.sources.toList = sourcesOf files (mapped files visits) ∧
    List.Forall₂ (Mapping.Maps files map.sources.toList) map.mappings.toList
      (mapped files visits) ∧
    map.mappings.toList.Pairwise (fun m m' => m.offset < m'.offset) ∧
    (visits.filter fun v => !v.2.isLabel).Pairwise (fun v w => v.1 < w.1) ∧
    ∀ before v after, visits = before ++ v :: after → v.2.isLabel = false →
      v.2.span.isLocated files = true → v ∈ mapped files visits ∨
        ∃ w ∈ before, w.1 = v.1 ∧ w.2.isLabel = true ∧ w.2.span.isLocated files = true := by
  intro visits
  obtain ⟨-, hbounds, hordered⟩ :
      InOrder 3 (3 + Piece.sizeAll (Instr.layoutAll body)) visits := Instr.visitsAll_inOrder 3 body
  have hsorted : visits.Pairwise fun v w => v.1 ≤ w.1 := hordered.imp fun hvw => hvw.1
  have hbound : ∀ v ∈ visits, v.1 < 0x100000000 := by
    intro v hv
    have hframed := (fits_of_assembled h).1.framed
    simp only [Instr.program, Piece.framed, Bool.and_eq_true, decide_eq_true_eq] at hframed
    have hv' := (hbounds v hv).2.1
    omega
  have hlists : map.Lists files (mapped files visits) := by
    rw [map_of_assembled h]
    exact lists_of_notes hsorted hbound hcols
  refine ⟨hlists.sources, hlists.mappings, ?_, ?_, ?_⟩
  · have hoffsets : (map.mappings.toList.map (·.offset.toNat)).Pairwise (· < ·) := by
      rw [hlists.offsets]
      exact List.pairwise_map.mpr (increasing_mapped hsorted)
    exact (List.pairwise_map.mp hoffsets).imp UInt32.lt_iff_toNat_lt.mpr
  · refine (List.Pairwise.filter _ hordered).imp_of_mem ?_
    intro v w hv _ hvw
    exact hvw.2 (by simpa using (List.mem_filter.mp hv).2)
  · intro before v after hvisits hlabel hlocated
    rw [hvisits] at hordered ⊢
    rcases mem_mapped_or hlocated with hmem | ⟨w, hw, heq, hwlocated⟩
    · exact Or.inl hmem
    · refine Or.inr ⟨w, hw, heq, ?_, hwlocated⟩
      -- What is no label would start before the visit, and not with it.
      obtain ⟨-, -, hpairs⟩ := List.pairwise_append.mp hordered
      have hless := (hpairs w hw v List.mem_cons_self).2
      by_contra hwlabel
      have hlt := hless (by simpa using hwlabel)
      omega

/-- A label and a jump that start at one offset, and an operand from a file that is not
registered. -/
theorem mappings_of_assembled_shared :
    let files : FileSet := ⟨#["main.gd", "util.gd"]⟩
    let body : List Instr := [.label (.byte 1) ⟨2, 1, 1, 2⟩, .jump (.byte 1) ⟨1, 2, 1, 5⟩,
      .ret (.value (.bool true) ⟨3, 3, 8, 4⟩) ⟨1, 3, 1, 6⟩]
    ∃ map, Instr.assemble files body = .ok (TwoPass.code body, map) ∧
      map.sources.toList = ["util.gd", "main.gd"] ∧
      map.mappings.toList.map (·.offset.toNat) = [3, 6] := by
  intro files body
  have hfits : TwoPass.Fits body :=
    ⟨by decide, by decide, by decide, by decide, by decide⟩
  obtain ⟨map, hmap⟩ := assemble_of_fits files hfits
  obtain ⟨hsources, hmappings, -⟩ := mappings_of_assembled hmap (by decide)
  have hlists : map.Lists files (mapped files (Instr.visitsAll 3 body)) := ⟨hsources, hmappings⟩
  exact ⟨map, hmap, hsources.trans (by decide), hlists.offsets.trans (by decide)⟩

end BytecodeCompiler
