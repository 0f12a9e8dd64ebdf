import BytecodeCompiler.Compiler.Checked
import BytecodeCompiler.Proofs.Emission.Mapped
import BytecodeCompiler.Proofs.Lower.Places

-- Which file a source map names for the code of a unit. The spans of a unit carry the position of
-- the unit, while files are numbered by their names, each name once. So the code of a unit is
-- mapped to the name that comes at this position among the different names, and that is the name of
-- the unit only if no two units up to it share a name.

namespace BytecodeCompiler

/-! ## Registered names -/

namespace FileSet

/-- Registering a name adds it at the end unless it is there. -/
theorem names_add (files : FileSet) (name : String) :
    (files.add name).2.names.toList =
      if name ∈ files.names.toList then files.names.toList else files.names.toList ++ [name] := by
  unfold add
  split
  · rename_i i hi
    obtain ⟨hlt, heq, -⟩ := List.findIdx?_eq_some_iff_getElem.mp hi
    rw [if_pos]
    rw [← eq_of_beq heq]
    exact List.getElem_mem hlt
  · rename_i hnone
    have hnew : name ∉ files.names.toList := by
      intro hmem
      have := List.findIdx?_eq_none_iff.mp hnone name hmem
      simp at this
    rw [if_neg hnew, Array.toList_push]

/-- Registering names in turn keeps each where it first appears. -/
theorem names_addAll (names : List String) :
    (empty.addAll names).names.toList = firstsBy id names := by
  induction names using List.reverseRecOn with
  | nil => rfl
  | append_singleton names name ih =>
    rw [addAll, List.foldl_append]
    change ((empty.addAll names).add name).2.names.toList = _
    rw [names_add, ih, firstsBy_concat, List.map_id, id_eq]

theorem name?_addAll (names : List String) {file : FileId} (h : file ≠ 0) :
    (empty.addAll names).name? file = (firstsBy id names)[file.toNat - 1]? := by
  rw [name?, if_neg h, ← names_addAll, Array.getElem?_toList]

end FileSet

/-! ## Units and their code -/

namespace Lower

variable {σ : Type} [NameSupply σ]

/-- The instructions are what lowering the unit appends. -/
def Makes (σ : Type) [NameSupply σ] (u : SourceUnit) (part : List Instr) : Prop :=
  ∃ s s' : LowerState σ, root u.tree u.root s = .ok () s' ∧ s'.out.toList = s.out.toList ++ part

theorem units_eq_ok {us : List SourceUnit} {s s' : LowerState σ} (h : units us s = .ok () s') :
    ∃ parts, List.Forall₂ (Makes σ) us parts ∧
      s'.out.toList = s.out.toList ++ parts.flatten := by
  induction us generalizing s with
  | nil =>
    cases h
    exact ⟨[], .nil, (List.append_nil _).symm⟩
  | cons u us ih =>
    obtain ⟨_, _, hforget, hrest⟩ := bind_eq_ok h
    cases hforget
    obtain ⟨_, s₁, hroot, hunits⟩ := bind_eq_ok hrest
    obtain ⟨part, hpart, -⟩ := emits_root_within (P := fun _ => True) trivial
      (fun _ _ _ => trivial) u.root _ _ _ hroot
    obtain ⟨parts, hparts, hout⟩ := ih hunits
    refine ⟨part :: parts, .cons ⟨_, _, hroot, hpart⟩ hparts, ?_⟩
    rw [hout, hpart, List.flatten_cons, List.append_assoc]
    rfl

/-- A program is what its units make, one after the other, and the call of its main function. -/
theorem instructions_eq_ok {names : σ} {us : List SourceUnit} {body : List Instr}
    (h : instructions names us = .ok body) :
    ∃ parts, List.Forall₂ (Makes σ) us parts ∧ body = parts.flatten ++ [mainCall] := by
  unfold instructions at h
  split at h
  · rename_i s' hprogram
    cases h
    obtain ⟨_, s₁, hunits, hcall⟩ := bind_eq_ok hprogram
    obtain ⟨parts, hparts, hout⟩ := units_eq_ok hunits
    refine ⟨parts, hparts, ?_⟩
    cases hcall
    rw [Array.toList_push, hout]
    rfl
  · cases h

/-- The call that starts a program has no place. -/
theorem within_mainCall : mainCall.Within (· = .none) := by
  have hcallee : (Instr.reference (.name mainName) .none).Within (· = .none) :=
    within_value (P := (· = .none)) rfl _
  have hargs : (Instr.args [] .none).Within (· = .none) := .intro rfl (List.forall_mem_nil _)
  exact .intro rfl (by simp [mainCall, Instr.parts, Instr.operands, hcallee, hargs])

/-- A unit that is lowered is a file. -/
theorem Makes.name {u : SourceUnit} {part : List Instr} (h : Makes σ u part) :
    ∃ name, u.name? = some name := by
  obtain ⟨s, s', hroot, -⟩ := h
  obtain ⟨n, s₁, hnode, hfile⟩ := bind_eq_ok hroot
  obtain ⟨-, -, -, hn⟩ := emits_nodeAt u.tree u.root s n s₁ hnode
  have hkind : u.tree.kind? u.root = some n.kind := by rw [Tree.kind?, hn, Option.map_some]
  rw [SourceUnit.name?, hkind]
  unfold file at hfile
  cases hfileKind : n.kind with
  | file name nodes => exact ⟨name, rfl⟩
  | _ =>
    rw [hfileKind] at hfile
    cases hfile

end Lower

namespace SourceUnit

/-- The spans of the unit that point somewhere point into the file of the given number. -/
def PlacedIn (u : SourceUnit) (number : Nat) : Prop :=
  ∀ n ∈ u.tree.nodes.toList, n.span.isValid = true → n.span.file.toNat = number

instance (u : SourceUnit) (number : Nat) : Decidable (u.PlacedIn number) :=
  inferInstanceAs (Decidable (∀ n ∈ u.tree.nodes.toList, _ → _))

/-- And so do those of its code. -/
theorem PlacedIn.visits {σ : Type} [NameSupply σ] {u : SourceUnit} {number start : Nat}
    (h : u.PlacedIn number) {part : List Instr} (hpart : Lower.Makes σ u part) {v : Nat × Instr}
    (hv : v ∈ Instr.visitsAll start part) (hvalid : v.2.span.isValid = true) :
    v.2.span.file.toNat = number := by
  obtain ⟨s, s', hroot, hout⟩ := hpart
  have hnodes : ∀ id n, u.tree.node? id = some n →
      n.span.isValid = true → n.span.file.toNat = number := by
    intro id n hn
    refine h n ?_
    rw [Tree.node?, ← Array.getElem?_toList] at hn
    exact List.mem_of_getElem? hn
  obtain ⟨made, hmade, hwithin⟩ := Lower.emits_root_within
    (P := fun span => span.isValid = true → span.file.toNat = number) (fun hnone => nomatch hnone)
    hnodes u.root s () s' hroot
  obtain rfl : made = part := List.append_cancel_left (hmade.symm.trans hout)
  obtain ⟨i, hi, start', hv⟩ := Instr.exists_of_mem_visitsAll hv
  exact (hwithin i hi).visits start' v hv hvalid

end SourceUnit

namespace Instr

theorem visitsAll_append (start : Nat) (is js : List Instr) :
    visitsAll start (is ++ js) =
      visitsAll start is ++ visitsAll (start + Piece.sizeAll (layoutAll is)) js := by
  induction is generalizing start with
  | nil => rfl
  | cons i is ih =>
    simp only [List.cons_append, visitsAll, ih, List.append_assoc, layoutAll,
      Piece.sizeAll_append, Nat.add_assoc, size]

/-- Where a part starts in a row of parts. -/
def startOf (start : Nat) (parts : List (List Instr)) (i : Nat) : Nat :=
  start + Piece.sizeAll (layoutAll (parts.take i).flatten)

/-- What is visited in a row of parts is visited in one of them. -/
theorem exists_part_of_mem_visitsAll {parts : List (List Instr)} {start : Nat} {v : Nat × Instr}
    (h : v ∈ visitsAll start parts.flatten) :
    ∃ i part, parts[i]? = some part ∧ v ∈ visitsAll (startOf start parts i) part := by
  induction parts generalizing start with
  | nil => cases h
  | cons part parts ih =>
    rw [List.flatten_cons, visitsAll_append] at h
    rcases List.mem_append.mp h with h | h
    · exact ⟨0, part, rfl, h⟩
    · obtain ⟨i, p, hp, hv⟩ := ih h
      refine ⟨i + 1, p, hp, ?_⟩
      rwa [startOf, List.take_succ_cons, List.flatten_cons, layoutAll_append,
        Piece.sizeAll_append, ← Nat.add_assoc]

end Instr

/-! ## Compiling -/

theorem Compiler.internal_eq_ok {φ α : Type} {e : Except Fault α} {a : α} {s s' : Compiler φ}
    (h : internal e s = .ok a s') : e = .ok a ∧ s = s' := by
  cases e with
  | ok b =>
    cases h
    exact ⟨rfl, rfl⟩
  | error fault => cases h

namespace CheckedUnits

/-- The names of units, as files are registered. -/
def names (u : CheckedUnits) : List String := u.units.map fun v => v.name?.getD ""

theorem analyze_eq_ok {u : CheckedUnits} {options : CompileOptions} {main : String}
    {us : List SourceUnit} {s : Compiler CheckedUnits}
    (h : Compiler.analyze main (Compiler.ofFrontend u options) = .ok us s) :
    us = u.units ∧ s = ⟨⟨[]⟩, options, FileSet.empty.addAll u.names⟩ := by
  obtain ⟨units⟩ := u
  cases units with
  | nil => cases h
  | cons unit units =>
    cases h
    exact ⟨rfl, rfl⟩

/-- Checking changes neither the units nor the files. -/
theorem check_eq_ok {us us' : List SourceUnit} {s s' : Compiler CheckedUnits}
    (h : Compiler.check us s = .ok us' s') :
    us' = us ∧ s'.options = s.options ∧ s'.files = s.files := by
  obtain ⟨frontend, options, files⟩ := s
  simp only [Compiler.check, Frontend.check, check] at h
  cases hunits : (NameCheck.ofScopes Scopes.withBuiltins).units us with
  | error fault =>
    rw [hunits] at h
    cases h
  | ok found =>
    obtain ⟨scopes, owners, findings⟩ := found
    rw [hunits] at h
    cases findings with
    | nil =>
      cases h
      exact ⟨rfl, rfl, rfl⟩
    | cons finding findings => cases h

/-- A compilation lowers the units and assembles what they make, with the files of their names. -/
theorem compile_eq_ok {u : CheckedUnits} {options : CompileOptions} {clock : UInt64}
    {c : Compilation} (h : u.compile options clock = .ok c) :
    Lower.instructions (options.names clock) u.units = .ok c.root ∧
    Instr.assemble (FileSet.empty.addAll u.names) c.root = .ok (c.code, c.map) := by
  unfold compile at h
  split at h
  · rename_i c' s hrun
    cases h
    obtain ⟨us, s₁, hanalyze, hrun⟩ := bind_eq_ok hrun
    obtain ⟨us', s₂, hcheck, hrun⟩ := bind_eq_ok hrun
    obtain ⟨_, _, hget, hrun⟩ := bind_eq_ok hrun
    cases hget
    obtain ⟨root, s₃, hlower, hrun⟩ := bind_eq_ok hrun
    obtain ⟨⟨code, map⟩, s₄, hassemble, hrun⟩ := bind_eq_ok hrun
    cases hrun
    obtain ⟨rfl, rfl⟩ := analyze_eq_ok hanalyze
    obtain ⟨rfl, hoptions, hfiles⟩ := check_eq_ok hcheck
    rw [hoptions] at hlower
    rw [hfiles] at hassemble
    exact ⟨(Compiler.internal_eq_ok hlower).1, (Compiler.internal_eq_ok hassemble).1⟩
  · cases h

end CheckedUnits

/-- The code of a program is what its units make, one after the other, and the call of its main
function. Its mappings are recorded for what the units made. Where the spans of each unit carry its
position, the source of a mapping is the name that comes at this position among the different names
of the units, and it is the name of the unit itself if and only if the names up to it differ. -/
theorem sources_of_compiled {u : CheckedUnits} {options : CompileOptions} {clock : UInt64}
    {c : Compilation} (h : u.compile options clock = .ok c)
    (hplaced : ∀ i (unit : SourceUnit), u.units[i]? = some unit → unit.PlacedIn (i + 1)) :
    let recorded := mapped (FileSet.empty.addAll u.names) (Instr.visitsAll 3 c.root)
    ∃ parts, List.Forall₂ (Lower.Makes HashedNames) u.units parts ∧
      c.root = parts.flatten ++ [Lower.mainCall] ∧
      c.map.mappings.size = recorded.length ∧
      (∀ v ∈ recorded, ∃ i part, parts[i]? = some part ∧
        v ∈ Instr.visitsAll (Instr.startOf 3 parts i) part) ∧
      ∀ i unit part m v, u.units[i]? = some unit → parts[i]? = some part →
        (m, v) ∈ c.map.mappings.toList.zip recorded →
        v ∈ Instr.visitsAll (Instr.startOf 3 parts i) part →
        m.offset.toNat = v.1 ∧ ∃ name, c.map.sources[m.file.toNat]? = some name ∧
          (firstsBy id u.names)[i]? = some name ∧
          (unit.name? = some name ↔ (u.names.take (i + 1)).Nodup) := by
  intro recorded
  obtain ⟨hlower, hassemble⟩ := CheckedUnits.compile_eq_ok h
  obtain ⟨parts, hparts, hroot⟩ := Lower.instructions_eq_ok hlower
  have hrecords : c.map.Records (FileSet.empty.addAll u.names) recorded :=
    records_of_assembled hassemble
  obtain ⟨hlength, hzip⟩ := List.forall₂_iff_zip.mp hrecords.mappings
  rw [Array.length_toList] at hlength
  refine ⟨parts, hparts, hroot, hlength, ?_, ?_⟩
  · intro v hv
    obtain ⟨hvisit, hlocated⟩ := List.mem_filter.mp ((firstsBy_sublist _ _).subset hv)
    rw [hroot, Instr.visitsAll_append] at hvisit
    rcases List.mem_append.mp hvisit with hvisit | hvisit
    · exact Instr.exists_part_of_mem_visitsAll hvisit
    · -- The call of the main function has no place.
      obtain ⟨call, hcall, start, hvisit⟩ := Instr.exists_of_mem_visitsAll hvisit
      rw [List.mem_singleton.mp hcall] at hvisit
      rw [Lower.within_mainCall.visits start v hvisit] at hlocated
      cases hlocated
  · intro i unit part m v hunit hpart hmem hvisit
    have hrecord := hzip hmem
    obtain ⟨name, hname, hsource⟩ := hrecord.file
    rw [Array.getElem?_toList] at hsource
    have hmakes : Lower.Makes HashedNames unit part := (List.forall₂_iff_zip.mp hparts).2
      (List.mem_iff_getElem?.mpr ⟨i, List.getElem?_zip_eq_some.mpr ⟨hunit, hpart⟩⟩)
    have hvalid : v.2.span.isValid = true := by
      obtain ⟨-, hlocated⟩ :=
        List.mem_filter.mp ((firstsBy_sublist _ _).subset (List.of_mem_zip hmem).2)
      exact (Span.isLocated_iff.mp hlocated).1
    have hfile : v.2.span.file.toNat = i + 1 := (hplaced i unit hunit).visits hmakes hvisit hvalid
    have hnumber : v.2.span.file ≠ 0 := by
      intro hzero
      rw [hzero] at hfile
      cases hfile
    have hfirst : (firstsBy id u.names)[i]? = some name := by
      rwa [FileSet.name?_addAll u.names hnumber, hfile] at hname
    obtain ⟨own, hown⟩ := hmakes.name
    have hnames : u.names[i]? = some own := by simp [CheckedUnits.names, hunit, hown]
    refine ⟨hrecord.offset, name, hsource, hfirst, ?_⟩
    rw [hown, ← getElem?_firstsBy_id_iff hnames, hfirst]
    exact eq_comm

/-- A unit that declares a type and does nothing else. -/
def aliasUnit (number : UInt32) (file name : String) : SourceUnit :=
  ⟨⟨#[⟨.typeAlias true name, ⟨number, 1, 1, 2⟩, some 1, ⟨some .int, none, none, none, none⟩⟩,
    ⟨.file file [0], ⟨number, 1, 1, 2⟩, none, .empty⟩]⟩, 1⟩

/-- A unit whose name is new, and one that repeats a name and is mapped nowhere. -/
theorem sources_of_compiled_repeated :
    let u : CheckedUnits :=
      ⟨[aliasUnit 1 "a.gd" "X", aliasUnit 2 "b.gd" "Y", aliasUnit 3 "a.gd" "Z"]⟩
    ∃ c, u.compile ⟨.debug, some 1⟩ 0 = .ok c ∧ c.map.mappings.size = 2 ∧
      ∃ parts, c.root = parts.flatten ++ [Lower.mainCall] ∧ parts.length = 3 ∧
        ∀ i part m v, parts[i]? = some part →
          (m, v) ∈ c.map.mappings.toList.zip
            (mapped ⟨#["a.gd", "b.gd"]⟩ (Instr.visitsAll 3 c.root)) →
          v ∈ Instr.visitsAll (Instr.startOf 3 parts i) part →
          c.map.sources[m.file.toNat]? = ["a.gd", "b.gd"][i]? := by
  intro u
  obtain ⟨c, hc, hsize⟩ : ∃ c, u.compile ⟨.debug, some 1⟩ 0 = .ok c ∧ c.map.mappings.size = 2 :=
    ⟨_, rfl, rfl⟩
  have hplaced : ∀ i (unit : SourceUnit), u.units[i]? = some unit → unit.PlacedIn (i + 1) := by
    intro i unit hunit
    rcases i with _ | _ | _ | i
    · cases hunit
      decide
    · cases hunit
      decide
    · cases hunit
      decide
    · cases hunit
  obtain ⟨parts, hparts, hroot, -, -, hsources⟩ := sources_of_compiled hc hplaced
  have hlength : parts.length = 3 := hparts.length_eq.symm
  refine ⟨c, hc, hsize, parts, hroot, hlength, fun i part m v hpart hmem hv => ?_⟩
  obtain ⟨hi, -⟩ := List.getElem?_eq_some_iff.mp hpart
  rw [← hparts.length_eq] at hi
  obtain ⟨unit, hunit⟩ : ∃ unit, u.units[i]? = some unit := ⟨_, List.getElem?_eq_getElem hi⟩
  obtain ⟨-, name, hsource, hfirst, -⟩ := hsources i unit part m v hunit hpart hmem hv
  exact hsource.trans hfirst.symm

/-- The second unit repeats the name of the first, so its code is mapped to the third. -/
theorem repeated_name_shifts_sources :
    let last : SourceUnit := ⟨⟨#[⟨.file "b.gd" [], ⟨3, 1, 1, 2⟩, none, .empty⟩]⟩, 0⟩
    let u : CheckedUnits := ⟨[aliasUnit 1 "a.gd" "X", aliasUnit 2 "a.gd" "Y", last]⟩
    (∀ p ∈ u.units.zipIdx 1, p.1.PlacedIn p.2) ∧
    ∃ c, u.compile ⟨.debug, some 1⟩ 0 = .ok c ∧
      c.root[1]? = some (.typeAlias ⟨true, true, .name "Y"⟩ .int ⟨2, 1, 1, 2⟩) ∧
      c.map.mappings.toList.map (fun m => (m.offset, c.map.sources[m.file.toNat]?)) =
        [(3, some "a.gd"), (10, some "b.gd")] ∧
      u.units[1]?.bind SourceUnit.name? = some "a.gd" :=
  ⟨by decide, _, rfl, rfl, rfl, rfl⟩

end BytecodeCompiler
