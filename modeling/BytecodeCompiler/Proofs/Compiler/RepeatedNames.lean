import BytecodeCompiler.Proofs.Scopes
import BytecodeCompiler.Proofs.Tree.Declarations
import Mathlib.Data.List.Induction

-- Names that a program declares again. The check goes through the declarations of all files in
-- order, with the scopes for the names that it knows and a table of the files they came from. The
-- two are kept in step, so it finds each declaration whose name is there already, and says where
-- the name was declared first.

namespace BytecodeCompiler

/-! ## What should be found -/

namespace DeclaredName

/-- The file of the first declaration of a name. -/
def firstFile? (ds : List DeclaredName) (name : String) : Option String :=
  (ds.find? (·.name == name)).map (·.file)

/-- Where the name of a declaration is from, if it was there before: the built-ins, or the file of
the first declaration of the name. -/
def owner? (d : DeclaredName) (earlier : List DeclaredName) : Option String :=
  if d.name ∈ Scopes.builtinNames then some "builtins" else firstFile? earlier d.name

/-- The finding of a declaration whose name is from elsewhere. -/
def finding (d : DeclaredName) (owner : String) : Diagnostic :=
  ⟨"E0201", "'" ++ d.name ++ "' is already declared in " ++ owner, d.file, d.span⟩

/-- The findings of declarations in order: one for each whose name was there before it. -/
def findings (ds : List DeclaredName) : List Diagnostic :=
  ds.zipIdx.filterMap fun (d, i) => (d.owner? (ds.take i)).map d.finding

/-- The names differ, and none is a built-in. -/
def Distinct (ds : List DeclaredName) : Prop :=
  (ds.map (·.name)).Nodup ∧ ∀ d ∈ ds, d.name ∉ Scopes.builtinNames

instance (ds : List DeclaredName) : Decidable (Distinct ds) :=
  inferInstanceAs (Decidable (_ ∧ _))

theorem firstFile?_concat_self {ds : List DeclaredName} {d : DeclaredName}
    (h : d.name ∉ ds.map (·.name)) : firstFile? (ds ++ [d]) d.name = some d.file := by
  have hnone : ds.find? (·.name == d.name) = none := by simpa using h
  unfold firstFile?
  rw [List.find?_append, hnone]
  simp

/-- A later declaration of a name changes nothing. -/
theorem firstFile?_concat_of_ne_or_mem {ds : List DeclaredName} {d : DeclaredName} {name : String}
    (h : d.name ≠ name ∨ name ∈ ds.map (·.name)) :
    firstFile? (ds ++ [d]) name = firstFile? ds name := by
  unfold firstFile?
  rw [List.find?_append]
  rcases h with hne | hmem
  · simp [hne]
  · have hsome : (ds.find? (·.name == name)).isSome = true := by simpa using hmem
    rw [Option.or_of_isSome hsome]

theorem isSome_firstFile?_iff {ds : List DeclaredName} {name : String} :
    (firstFile? ds name).isSome = true ↔ name ∈ ds.map (·.name) := by
  simp [firstFile?]

theorem findings_concat (ds : List DeclaredName) (d : DeclaredName) :
    findings (ds ++ [d]) = findings ds ++ ((d.owner? ds).map d.finding).toList := by
  unfold findings
  rw [List.zipIdx_append, List.filterMap_append]
  congr 1
  · refine List.filterMap_congr fun ⟨d, i⟩ hp => ?_
    have hlt : i < ds.length + 0 := List.snd_lt_of_mem_zipIdx hp
    simp only [List.take_append_of_le_length (Nat.le_of_lt hlt)]
  · cases h : d.owner? ds <;> simp [h]

theorem owner?_eq_none_iff {d : DeclaredName} {ds : List DeclaredName} :
    d.owner? ds = none ↔ d.name ∉ Scopes.builtinNames ∧ d.name ∉ ds.map (·.name) := by
  unfold owner?
  by_cases hbuiltin : d.name ∈ Scopes.builtinNames
  · simp [hbuiltin]
  · rw [if_neg hbuiltin, ← isSome_firstFile?_iff]
    simp [hbuiltin]

theorem distinct_concat {ds : List DeclaredName} {d : DeclaredName} :
    Distinct (ds ++ [d]) ↔ Distinct ds ∧ d.owner? ds = none := by
  unfold Distinct
  rw [owner?_eq_none_iff, List.map_append, List.map_singleton, ← List.concat_eq_append,
    List.nodup_concat]
  simp only [List.forall_mem_append, List.forall_mem_singleton]
  tauto

/-- Nothing is found exactly if the names differ from each other and from the built-ins. -/
theorem findings_eq_nil_iff {ds : List DeclaredName} : findings ds = [] ↔ Distinct ds := by
  induction ds using List.reverseRecOn with
  | nil => simp [findings, Distinct]
  | append_singleton ds d ih =>
    rw [findings_concat, List.append_eq_nil_iff, ih, distinct_concat]
    cases d.owner? ds <;> simp

end DeclaredName

/-! ## What the check knows -/

namespace NameCheck

/-- The check has gone through the declarations. -/
structure Knows (c : NameCheck) (ds : List DeclaredName) : Prop where
  names : ∀ name, c.scopes.isLocal name = true ↔
    name ∈ Scopes.builtinNames ∨ name ∈ ds.map (·.name)
  owners : ∀ name, name ∉ Scopes.builtinNames →
    c.owners.lookup name = DeclaredName.firstFile? ds name
  builtins : ∀ name ∈ Scopes.builtinNames, c.owners.lookup name = none
  findings_eq : c.findings = DeclaredName.findings ds

theorem knows_ofScopes : (ofScopes Scopes.withBuiltins).Knows [] where
  names name := by simp [ofScopes, Scopes.isLocal_withBuiltins]
  owners _ _ := rfl
  builtins _ _ := rfl
  findings_eq := rfl

section Declare

variable {c : NameCheck} {ds : List DeclaredName} {file : String} {symbol : Symbol}

/-- The table has the owner of every name that is known. -/
theorem Knows.owner?_eq (h : c.Knows ds) {d : DeclaredName}
    (hlocal : c.scopes.isLocal d.name = true) :
    d.owner? ds = some ((c.owners.lookup d.name).getD "builtins") := by
  unfold DeclaredName.owner?
  by_cases hbuiltin : d.name ∈ Scopes.builtinNames
  · rw [if_pos hbuiltin, h.builtins d.name hbuiltin]
    rfl
  · have hmem := ((h.names d.name).mp hlocal).resolve_left hbuiltin
    obtain ⟨first, hfirst⟩ :=
      Option.isSome_iff_exists.mp (DeclaredName.isSome_firstFile?_iff.mpr hmem)
    rw [if_neg hbuiltin, h.owners d.name hbuiltin, hfirst]
    rfl

/-- A name that is known is found, with the owner that the table has for it. -/
theorem Knows.declare_of_isLocal (h : c.Knows ds)
    (hlocal : c.scopes.isLocal symbol.name = true) :
    (c.declare file symbol).Knows (ds ++ [symbol.declaration file]) := by
  have heq : c.declare file symbol = ⟨c.scopes, c.owners,
      c.findings ++ [repeated file symbol (c.owners.lookup symbol.name)]⟩ := by
    unfold NameCheck.declare
    rw [Scopes.declare_of_isLocal hlocal]
  have hknown := (h.names symbol.name).mp hlocal
  rw [heq]
  refine ⟨fun name => ?_, fun name hname => ?_, h.builtins, ?_⟩
  · rw [h.names, List.map_append, List.mem_append, List.map_singleton, List.mem_singleton]
    constructor
    · exact Or.imp_right Or.inl
    · rintro (hname | hname | rfl)
      · exact Or.inl hname
      · exact Or.inr hname
      · exact hknown
  · rw [h.owners name hname, DeclaredName.firstFile?_concat_of_ne_or_mem]
    by_cases heq : symbol.name = name
    · subst heq
      exact Or.inr (hknown.resolve_left hname)
    · exact Or.inl heq
  · rw [h.findings_eq, DeclaredName.findings_concat, h.owner?_eq hlocal]
    rfl

/-- A name that is new is noted, and nothing is found. -/
theorem Knows.declare_of_not_isLocal (h : c.Knows ds)
    (hlocal : ¬ c.scopes.isLocal symbol.name = true) :
    (c.declare file symbol).Knows (ds ++ [symbol.declaration file]) := by
  obtain ⟨scopes, hdeclare, hnames⟩ := Scopes.declare_of_not_isLocal hlocal
  have heq : c.declare file symbol =
      ⟨scopes, (symbol.name, file) :: c.owners, c.findings⟩ := by
    unfold NameCheck.declare
    rw [hdeclare]
  have hnew : symbol.name ∉ Scopes.builtinNames ∧ symbol.name ∉ ds.map (·.name) := by
    rwa [h.names, not_or] at hlocal
  have hlookup : ∀ name, symbol.name ≠ name →
      ((symbol.name, file) :: c.owners).lookup name = c.owners.lookup name := by
    intro name hne
    rw [List.lookup_cons, beq_false_of_ne hne.symm]
  rw [heq]
  refine ⟨fun name => ?_, fun name hname => ?_, fun name hname => ?_, ?_⟩
  · rw [hnames, h.names, List.map_append, List.mem_append, List.map_singleton,
      List.mem_singleton, @eq_comm _ symbol.name]
    simp only [Symbol.declaration]
    tauto
  · by_cases heq : symbol.name = name
    · subst heq
      rw [List.lookup_cons_self]
      exact (DeclaredName.firstFile?_concat_self (d := symbol.declaration file) hnew.2).symm
    · rw [hlookup name heq, h.owners name hname,
        DeclaredName.firstFile?_concat_of_ne_or_mem (Or.inl heq)]
  · rw [hlookup name (fun heq => hnew.1 (heq ▸ hname)), h.builtins name hname]
  · rw [h.findings_eq, DeclaredName.findings_concat,
      (DeclaredName.owner?_eq_none_iff (d := symbol.declaration file)).mpr hnew]
    exact (List.append_nil _).symm

/-- Symbols of a file are gone through one after the other. -/
theorem Knows.foldl_declare (h : c.Knows ds) (file : String) (symbols : List Symbol) :
    (symbols.foldl (declare file) c).Knows (ds ++ symbols.map (·.declaration file)) := by
  induction symbols generalizing c ds with
  | nil => rwa [List.map_nil, List.append_nil]
  | cons symbol symbols ih =>
    have hstep : (c.declare file symbol).Knows (ds ++ [symbol.declaration file]) := by
      by_cases hlocal : c.scopes.isLocal symbol.name = true
      · exact h.declare_of_isLocal hlocal
      · exact h.declare_of_not_isLocal hlocal
    have hrest := ih hstep
    rwa [List.append_assoc] at hrest

end Declare

end NameCheck

/-! ## All files -/

/-- The files make the declarations, one file after the other. -/
inductive DeclaredBy : List SourceUnit → List DeclaredName → Prop where
  | nil : DeclaredBy [] []
  | cons {u : SourceUnit} {us : List SourceUnit} {ds others : List DeclaredName}
    (h : u.Declares ds) (hus : DeclaredBy us others) : DeclaredBy (u :: us) (ds ++ others)

/-- All nodes at the top of the file are there. -/
def SourceUnit.Complete (u : SourceUnit) : Prop :=
  ∀ id, u.AtTop id → ∃ n, u.tree.node? id = some n

theorem SourceUnit.Declares.unique {u : SourceUnit} {ds ds' : List DeclaredName}
    (h : u.Declares ds) (h' : u.Declares ds') : ds = ds' := by
  obtain ⟨name, nodes, hroot, hall⟩ := h
  obtain ⟨name', nodes', hroot', hall'⟩ := h'
  cases hroot.symm.trans hroot'
  exact hall.unique hall'

theorem SourceUnit.Declares.complete {u : SourceUnit} {ds : List DeclaredName}
    (h : u.Declares ds) : u.Complete := by
  obtain ⟨name, nodes, hroot, hall⟩ := h
  intro id hid
  exact exists_node_of_declares hroot hall hid

theorem DeclaredBy.unique {us : List SourceUnit} {ds ds' : List DeclaredName}
    (h : DeclaredBy us ds) (h' : DeclaredBy us ds') : ds = ds' := by
  induction h generalizing ds' with
  | nil =>
    cases h'
    rfl
  | cons h hus ih =>
    cases h' with
    | cons h' hus' => rw [h.unique h', ih hus']

theorem DeclaredBy.complete {us : List SourceUnit} {ds : List DeclaredName}
    (h : DeclaredBy us ds) : ∀ u ∈ us, u.Complete := by
  induction h with
  | nil => exact List.forall_mem_nil _
  | cons h hus ih => exact List.forall_mem_cons.mpr ⟨h.complete, ih⟩

namespace NameCheck

theorem Knows.unit {c c' : NameCheck} {ds : List DeclaredName} (h : c.Knows ds) {u : SourceUnit}
    (hfile : u.tree.Is NodeKind.isFile u.root) (hunit : c.unit u = .ok c') :
    ∃ own, u.Declares own ∧ c'.Knows (ds ++ own) := by
  obtain ⟨name, nodes, hroot⟩ := u.exists_file hfile
  obtain ⟨symbols, hsymbols, heq⟩ := except_bind_eq_ok hunit
  cases heq
  have hname : u.name?.getD "" = name := by
    unfold SourceUnit.name?
    rw [hroot]
    rfl
  rw [hname]
  exact ⟨_, ⟨name, nodes, hroot, SourceUnit.declares_of_symbols hroot hsymbols⟩,
    h.foldl_declare name symbols⟩

/-- A check that gets through all files has gone through what they declare. -/
theorem Knows.units {c c' : NameCheck} {ds : List DeclaredName} (h : c.Knows ds)
    {us : List SourceUnit} (hfiles : ∀ u ∈ us, u.tree.Is NodeKind.isFile u.root)
    (hunits : c.units us = .ok c') : ∃ all, DeclaredBy us all ∧ c'.Knows (ds ++ all) := by
  induction us generalizing c ds with
  | nil =>
    cases hunits
    exact ⟨[], .nil, by rwa [List.append_nil]⟩
  | cons u us ih =>
    obtain ⟨hfile, hfiles⟩ := List.forall_mem_cons.mp hfiles
    obtain ⟨mid, hunit, hrest⟩ := except_bind_eq_ok hunits
    obtain ⟨own, hown, hmid⟩ := h.unit hfile hunit
    obtain ⟨others, hothers, hknows⟩ := ih hmid hfiles hrest
    rw [List.append_assoc] at hknows
    exact ⟨own ++ others, .cons hown hothers, hknows⟩

/-- A check stops only at a node that is missing. -/
theorem missing_of_units {c : NameCheck} {us : List SourceUnit}
    (hfiles : ∀ u ∈ us, u.tree.Is NodeKind.isFile u.root) (hacyclic : ∀ u ∈ us, u.Acyclic)
    {fault : Fault} (h : c.units us = .error fault) :
    ∃ u ∈ us, ∃ id, u.AtTop id ∧ u.tree.node? id = none ∧ fault = .noSuchNode id := by
  induction us generalizing c with
  | nil => cases h
  | cons u us ih =>
    obtain ⟨hfile, hfiles⟩ := List.forall_mem_cons.mp hfiles
    obtain ⟨hown, hacyclic⟩ := List.forall_mem_cons.mp hacyclic
    obtain ⟨name, nodes, hroot⟩ := u.exists_file hfile
    rcases except_bind_eq_error h with h | ⟨mid, -, h⟩
    · rcases except_bind_eq_error h with h | ⟨symbols, -, h⟩
      · obtain ⟨id, hid⟩ := hown.symbols_eq_error hroot h
        exact ⟨u, List.mem_cons_self, id, hid⟩
      · cases h
    · obtain ⟨u', hu', hmissing⟩ := ih hfiles hacyclic h
      exact ⟨u', List.mem_cons_of_mem _ hu', hmissing⟩

end NameCheck

/-! ## The check -/

namespace CheckedUnits

open DeclaredName

/-- What the check answers once it has gone through the declarations. -/
theorem check_of_knows {units : List SourceUnit} {self : CheckedUnits} {scopes : Scopes}
    {c : NameCheck} {ds : List DeclaredName}
    (hunits : (NameCheck.ofScopes scopes).units units = .ok c) (h : c.Knows ds) :
    check units (self, scopes) =
      if Distinct ds then .ok units (self, c.scopes)
      else .error (.refused (findings ds)) (self, c.scopes) := by
  obtain ⟨known, owners, found⟩ := c
  obtain rfl : found = findings ds := h.findings_eq
  unfold check
  simp only [hunits]
  by_cases hdistinct : Distinct ds
  · rw [if_pos hdistinct, findings_eq_nil_iff.mpr hdistinct]
  · obtain ⟨first, rest, hfindings⟩ :=
      List.exists_cons_of_ne_nil (mt findings_eq_nil_iff.mp hdistinct)
    rw [if_neg hdistinct, hfindings]

/-- The check refuses a program exactly if it declares a built-in or declares a name again, and then
it finds each such declaration, in order. Only a node that is missing keeps it from an answer. -/
theorem check_finds_repeated_names {units : List SourceUnit}
    (hfiles : ∀ u ∈ units, u.tree.Is NodeKind.isFile u.root) (hacyclic : ∀ u ∈ units, u.Acyclic)
    (self : CheckedUnits) :
    ((∀ u ∈ units, u.Complete) → ∃ ds, (∀ ds', DeclaredBy units ds' ↔ ds' = ds) ∧
      ∃ scopes, check units (self, .withBuiltins) =
        if Distinct ds then .ok units (self, scopes)
        else .error (.refused (findings ds)) (self, scopes)) ∧
    ((∃ u ∈ units, ¬ u.Complete) → ∃ u ∈ units, ∃ id, u.AtTop id ∧ u.tree.node? id = none ∧
      check units (self, .withBuiltins) =
        .error (.internal (.noSuchNode id)) (self, .withBuiltins)) := by
  cases hunits : (NameCheck.ofScopes .withBuiltins).units units with
  | ok c =>
    obtain ⟨ds, hds, hknows⟩ := NameCheck.knows_ofScopes.units hfiles hunits
    rw [List.nil_append] at hknows
    refine ⟨fun _ => ⟨ds, fun ds' => ⟨fun hds' => hds'.unique hds, fun h => h ▸ hds⟩, c.scopes,
      check_of_knows hunits hknows⟩, ?_⟩
    rintro ⟨u, hu, hincomplete⟩
    exact absurd (hds.complete u hu) hincomplete
  | error fault =>
    obtain ⟨u, hu, id, hid, hmissing, rfl⟩ := NameCheck.missing_of_units hfiles hacyclic hunits
    refine ⟨fun hcomplete => ?_, fun _ => ⟨u, hu, id, hid, hmissing, ?_⟩⟩
    · obtain ⟨n, hn⟩ := hcomplete u hu id hid
      cases hmissing.symm.trans hn
    · unfold check
      simp only [hunits]

/-- A file with a group in a group that declares a name, a built-in and the name again. -/
def groupsUnit : SourceUnit :=
  ⟨⟨#[⟨.typeAlias true "X", ⟨1, 1, 1, 2⟩, some 2, .empty⟩,
    ⟨.typeAlias true "len", ⟨1, 2, 1, 4⟩, some 2, .empty⟩,
    ⟨.sets [0, 1], ⟨1, 1, 1, 2⟩, some 3, .empty⟩, ⟨.sets [2, 0], ⟨1, 1, 1, 2⟩, some 4, .empty⟩,
    ⟨.file "a.gd" [3], ⟨1, 1, 1, 2⟩, none, .empty⟩]⟩, 4⟩

/-- A file that declares the name once more. -/
def againUnit : SourceUnit :=
  ⟨⟨#[⟨.typeAlias true "X", ⟨2, 7, 1, 2⟩, some 1, .empty⟩,
    ⟨.file "b.gd" [0], ⟨2, 1, 1, 2⟩, none, .empty⟩]⟩, 1⟩

theorem declaredBy_groupsUnit_againUnit :
    DeclaredBy [groupsUnit, againUnit] [⟨"a.gd", "X", ⟨1, 1, 1, 2⟩⟩, ⟨"a.gd", "len", ⟨1, 2, 1, 4⟩⟩,
      ⟨"a.gd", "X", ⟨1, 1, 1, 2⟩⟩, ⟨"b.gd", "X", ⟨2, 7, 1, 2⟩⟩] := by
  have hname : groupsUnit.tree.Declares "a.gd" 0 _ := .own rfl (fun _ => nofun)
  have hbuiltin : groupsUnit.tree.Declares "a.gd" 1 _ := .own rfl (fun _ => nofun)
  have hinner : groupsUnit.tree.Declares "a.gd" 2 _ :=
    .group rfl rfl (.cons hname (.cons hbuiltin .nil))
  have houter : groupsUnit.tree.Declares "a.gd" 3 _ :=
    .group rfl rfl (.cons hinner (.cons hname .nil))
  have hagain : againUnit.tree.Declares "b.gd" 0 _ := .own rfl (fun _ => nofun)
  have hgroups : groupsUnit.Declares _ := ⟨"a.gd", [3], rfl, .cons houter .nil⟩
  have hunit : againUnit.Declares _ := ⟨"b.gd", [0], rfl, .cons hagain .nil⟩
  exact .cons hgroups (.cons hunit .nil)

theorem check_finds_repeated_names_groups :
    ∃ scopes, check [groupsUnit, againUnit] (⟨[]⟩, .withBuiltins) = .error (.refused
      [⟨"E0201", "'len' is already declared in builtins", "a.gd", ⟨1, 2, 1, 4⟩⟩,
        ⟨"E0201", "'X' is already declared in a.gd", "a.gd", ⟨1, 1, 1, 2⟩⟩,
        ⟨"E0201", "'X' is already declared in a.gd", "b.gd", ⟨2, 7, 1, 2⟩⟩]) (⟨[]⟩, scopes) := by
  have hfiles : ∀ u ∈ [groupsUnit, againUnit], u.tree.Is NodeKind.isFile u.root := by decide
  have hacyclic : ∀ u ∈ [groupsUnit, againUnit], u.Acyclic := by
    have hordered : ∀ u ∈ [groupsUnit, againUnit], ∀ group < u.tree.size,
        ∀ n ∈ u.tree.node? group, ∀ id ∈ n.kind.children, id < group := by decide
    exact fun u hu => SourceUnit.acyclic_of_ordered (hordered u hu)
  have hdeclared := declaredBy_groupsUnit_againUnit
  obtain ⟨ds, hds, scopes, hcheck⟩ :=
    (check_finds_repeated_names hfiles hacyclic ⟨[]⟩).1 hdeclared.complete
  obtain rfl := (hds _).mp hdeclared
  exact ⟨scopes, hcheck⟩

end CheckedUnits

end BytecodeCompiler
