import BytecodeCompiler.Compiler.Checked
import BytecodeCompiler.Proofs.Firsts
import BytecodeCompiler.Proofs.Tree.WellFormed

-- The declarations at the top of source files. A node declares one name or none, and a group
-- declares what its nodes declare, one after the other. Groups may stand in groups. The symbols
-- that are collected from a file are these declarations if no group is inside itself.

namespace BytecodeCompiler

/-- A name that is declared in a file. -/
structure DeclaredName where
  file : String
  name : String
  span : Span
deriving DecidableEq, Inhabited

/-- The name that a node declares. -/
def NodeKind.declared? : NodeKind → Option String
  | .set _ _ name _ _ | .func _ name _ | .typeAlias _ name => some name
  | _ => none

/-- The declaration that a node makes in a file. -/
def Node.declaration? (n : Node) (file : String) : Option DeclaredName :=
  n.kind.declared?.map fun name => ⟨file, name, n.span⟩

/-- The declaration that a symbol stands for. -/
def Symbol.declaration (s : Symbol) (file : String) : DeclaredName := ⟨file, s.name, s.span⟩

theorem Node.map_declaration_symbol? (n : Node) (file : String) :
    n.symbol?.toList.map (·.declaration file) = (n.declaration? file).toList := by
  unfold Node.symbol? Node.declaration?
  cases n.kind <;> rfl

/-! ## Groups -/

namespace Tree

/-- The group lists the node. -/
def Groups (t : Tree) (group id : NodeId) : Prop :=
  ∃ n ids, t.node? group = some n ∧ n.kind = .sets ids ∧ id ∈ ids

section Declares

variable (t : Tree) (file : String)

mutual

/-- The node makes the declarations, in this order. -/
inductive Declares : NodeId → List DeclaredName → Prop where
  | own {id : NodeId} {n : Node} (hn : t.node? id = some n) (hkind : ∀ ids, n.kind ≠ .sets ids) :
    Declares id (n.declaration? file).toList
  | group {id : NodeId} {n : Node} {ids : List NodeId} {ds : List DeclaredName}
    (hn : t.node? id = some n) (hkind : n.kind = .sets ids) (hall : DeclaresAll ids ds) :
    Declares id ds

/-- The nodes make the declarations, one node after the other. -/
inductive DeclaresAll : List NodeId → List DeclaredName → Prop where
  | nil : DeclaresAll [] []
  | cons {id : NodeId} {ids : List NodeId} {ds others : List DeclaredName} (h : Declares id ds)
    (hall : DeclaresAll ids others) : DeclaresAll (id :: ids) (ds ++ others)

end

end Declares

section Declared

variable {t : Tree} {file : String}

mutual

theorem Declares.unique {id : NodeId} {ds ds' : List DeclaredName} :
    t.Declares file id ds → t.Declares file id ds' → ds = ds'
  | .own hn hkind, .own hn' _ => by
    cases hn.symm.trans hn'
    rfl
  | .own hn hkind, .group hn' hkind' _ => by
    cases hn.symm.trans hn'
    exact absurd hkind' (hkind _)
  | .group hn hkind _, .own hn' hkind' => by
    cases hn.symm.trans hn'
    exact absurd hkind (hkind' _)
  | .group hn hkind hall, .group hn' hkind' hall' => by
    cases hn.symm.trans hn'
    cases hkind.symm.trans hkind'
    exact hall.unique hall'

theorem DeclaresAll.unique {ids : List NodeId} {ds ds' : List DeclaredName} :
    t.DeclaresAll file ids ds → t.DeclaresAll file ids ds' → ds = ds'
  | .nil, .nil => rfl
  | .cons h hall, .cons h' hall' => by rw [h.unique h', hall.unique hall']

end

/-- What is listed declares something. -/
theorem DeclaresAll.declares_of_mem {ids : List NodeId} {ds : List DeclaredName} {id : NodeId} :
    t.DeclaresAll file ids ds → id ∈ ids → ∃ own, t.Declares file id own
  | .nil, hid => nomatch hid
  | .cons h hall, hid => by
    rcases List.mem_cons.mp hid with rfl | hid
    · exact ⟨_, h⟩
    · exact hall.declares_of_mem hid

theorem Declares.exists_node {id : NodeId} {ds : List DeclaredName} (h : t.Declares file id ds) :
    ∃ n, t.node? id = some n := by
  cases h with
  | own hn => exact ⟨_, hn⟩
  | group hn => exact ⟨_, hn⟩

theorem Declares.declares_of_groups {group id : NodeId} {ds : List DeclaredName}
    (h : t.Declares file group ds) (hid : t.Groups group id) : ∃ own, t.Declares file id own := by
  obtain ⟨n, ids, hn, hkind, hid⟩ := hid
  cases h with
  | own hn' hother =>
    cases hn.symm.trans hn'
    exact absurd hkind (hother ids)
  | group hn' hkind' hall =>
    cases hn.symm.trans hn'
    cases hkind.symm.trans hkind'
    exact hall.declares_of_mem hid

end Declared

end Tree

/-! ## Collecting symbols -/

section Results

variable {ε α β : Type}

theorem except_bind_eq_ok {x : Except ε α} {f : α → Except ε β} {b : β} (h : x >>= f = .ok b) :
    ∃ a, x = .ok a ∧ f a = .ok b := by
  cases x with
  | error e => cases h
  | ok a => exact ⟨a, rfl, h⟩

theorem except_bind_eq_error {x : Except ε α} {f : α → Except ε β} {e : ε}
    (h : x >>= f = .error e) : x = .error e ∨ ∃ a, x = .ok a ∧ f a = .error e := by
  cases x with
  | error e' =>
    cases h
    exact Or.inl rfl
  | ok a => exact Or.inr ⟨a, rfl, h⟩

/-- What fails for a list fails for one of its entries. -/
theorem exists_of_mapM_eq_error {f : α → Except ε β} {as : List α} {e : ε}
    (h : as.mapM f = .error e) : ∃ a ∈ as, f a = .error e := by
  induction as with
  | nil => cases h
  | cons a as ih =>
    rw [List.mapM_cons] at h
    rcases except_bind_eq_error h with h | ⟨b, -, h⟩
    · exact ⟨a, List.mem_cons_self, h⟩
    · rcases except_bind_eq_error h with h | ⟨bs, -, h⟩
      · obtain ⟨a', ha', hfails⟩ := ih h
        exact ⟨a', List.mem_cons_of_mem _ ha', hfails⟩
      · cases h

end Results

namespace Tree

section Collected

variable {t : Tree} {file : String}

theorem declaresAll_of_mapM {f : NodeId → Except Fault (List Symbol)}
    (hf : ∀ id symbols, f id = .ok symbols →
      t.Declares file id (symbols.map (·.declaration file)))
    {ids : List NodeId} {parts : List (List Symbol)} (h : ids.mapM f = .ok parts) :
    t.DeclaresAll file ids (parts.flatten.map (·.declaration file)) := by
  induction ids generalizing parts with
  | nil =>
    cases h
    exact .nil
  | cons id ids ih =>
    rw [List.mapM_cons] at h
    obtain ⟨symbols, hid, h⟩ := except_bind_eq_ok h
    obtain ⟨others, hids, h⟩ := except_bind_eq_ok h
    cases h
    rw [List.flatten_cons, List.map_append]
    exact .cons (hf id symbols hid) (ih hids)

/-- The symbols that are collected are the declarations. -/
theorem declares_of_symbolsWithin {steps : Nat} {id : NodeId} {symbols : List Symbol}
    (h : t.symbolsWithin steps id = .ok symbols) :
    t.Declares file id (symbols.map (·.declaration file)) := by
  induction steps generalizing id symbols with
  | zero => cases h
  | succ steps ih =>
    unfold symbolsWithin at h
    cases hn : t.node? id with
    | none =>
      simp only [hn] at h
      cases h
    | some n =>
      simp only [hn] at h
      split at h
      · rename_i ids hkind
        obtain ⟨parts, hparts, h⟩ := except_bind_eq_ok h
        cases h
        exact .group hn hkind (declaresAll_of_mapM (fun id symbols hid => ih hid) hparts)
      · rename_i hkind
        cases h
        rw [n.map_declaration_symbol?]
        exact .own hn hkind

end Collected

end Tree

/-! ## Files -/

namespace SourceUnit

/-- The node stands at the top of the file: the file lists it, or a group that stands there. -/
inductive AtTop (u : SourceUnit) : NodeId → Prop where
  | listed {name : String} {nodes : List NodeId} {id : NodeId}
    (h : u.tree.kind? u.root = some (.file name nodes)) (hid : id ∈ nodes) : AtTop u id
  | grouped {group id : NodeId} (h : AtTop u group) (hid : u.tree.Groups group id) : AtTop u id

/-- No group at the top is inside itself. -/
def Acyclic (u : SourceUnit) : Prop :=
  ∀ id, u.AtTop id → ¬ Relation.TransGen u.tree.Groups id id

/-- The file makes the declarations, in this order. -/
def Declares (u : SourceUnit) (ds : List DeclaredName) : Prop :=
  ∃ name nodes, u.tree.kind? u.root = some (.file name nodes) ∧ u.tree.DeclaresAll name nodes ds

theorem exists_file (u : SourceUnit) (h : u.tree.Is NodeKind.isFile u.root) :
    ∃ name nodes, u.tree.kind? u.root = some (.file name nodes) := by
  obtain ⟨n, hn, hkind⟩ := Tree.exists_node_of_is h
  cases hk : n.kind with
  | file name nodes => exact ⟨name, nodes, by simp [Tree.kind?, hn, hk]⟩
  | _ => rw [hk] at hkind; cases hkind

/-- Groups that come after what they list are not inside themselves. -/
theorem acyclic_of_ordered {u : SourceUnit} (h : ∀ group < u.tree.size,
    ∀ n ∈ u.tree.node? group, ∀ id ∈ n.kind.children, id < group) : u.Acyclic := by
  have hgroups : ∀ {group id : Nat}, u.tree.Groups group id → id < group := by
    rintro group id ⟨n, ids, hn, hkind, hid⟩
    refine h group (Tree.lt_size_of_node? hn) n hn id ?_
    rw [hkind]
    exact hid
  have hpath : ∀ {group id : Nat}, Relation.TransGen u.tree.Groups group id → id < group := by
    intro group id hpath
    induction hpath with
    | single hid => exact hgroups hid
    | tail _ hid ih => exact Nat.lt_trans (hgroups hid) ih
  intro id _ hself
  exact Nat.lt_irrefl id (hpath hself)

section Collected

variable {u : SourceUnit}

/-- Where no group is inside itself, only a node that is missing stops the collecting. The groups
around the node are all different, so there are enough steps for all of them. -/
theorem Acyclic.missing_of_error (h : u.Acyclic) {steps : Nat} {id : NodeId} {fault : Fault}
    (hid : u.AtTop id) {around : List Nat} (hnodup : around.Nodup)
    (haround : ∀ a ∈ around, a < u.tree.size ∧ Relation.TransGen u.tree.Groups a id)
    (hsteps : u.tree.size < steps + around.length)
    (hfault : u.tree.symbolsWithin steps id = .error fault) :
    ∃ missing, u.AtTop missing ∧ u.tree.node? missing = none ∧ fault = .noSuchNode missing := by
  induction steps generalizing id around with
  | zero =>
    have hle : around.length ≤ u.tree.size :=
      length_le_of_nodup_map (by rwa [List.map_id']) fun a ha => (haround a ha).1
    omega
  | succ steps ih =>
    unfold Tree.symbolsWithin at hfault
    cases hn : u.tree.node? id with
    | none =>
      simp only [hn] at hfault
      cases hfault
      exact ⟨id, hid, hn, rfl⟩
    | some n =>
      simp only [hn] at hfault
      split at hfault
      · rename_i ids hkind
        rcases except_bind_eq_error hfault with hfault | ⟨parts, -, hfault⟩
        · obtain ⟨child, hchild, hfault⟩ := exists_of_mapM_eq_error hfault
          have hgroups : u.tree.Groups id child := ⟨n, ids, hn, hkind, hchild⟩
          have hnew : id ∉ around := fun hmem => h id hid (haround id hmem).2
          refine ih (hid.grouped hgroups) (List.nodup_cons.mpr ⟨hnew, hnodup⟩) ?_ ?_ hfault
          · intro a ha
            rcases List.mem_cons.mp ha with rfl | ha
            · exact ⟨Tree.lt_size_of_node? hn, .single hgroups⟩
            · exact ⟨(haround a ha).1, (haround a ha).2.tail hgroups⟩
          · rw [List.length_cons]
            omega
        · cases hfault
      · cases hfault

variable {name : String} {nodes : List NodeId}

theorem exists_node_of_declares (hroot : u.tree.kind? u.root = some (.file name nodes))
    {ds : List DeclaredName} (hall : u.tree.DeclaresAll name nodes ds) {id : NodeId}
    (hid : u.AtTop id) : ∃ n, u.tree.node? id = some n := by
  have hdeclares : ∃ own, u.tree.Declares name id own := by
    induction hid with
    | listed hroot' hid =>
      cases hroot.symm.trans hroot'
      exact hall.declares_of_mem hid
    | grouped _ hid ih =>
      obtain ⟨own, hgroup⟩ := ih
      exact hgroup.declares_of_groups hid
  obtain ⟨own, hown⟩ := hdeclares
  exact hown.exists_node

theorem declares_of_symbols (hroot : u.tree.kind? u.root = some (.file name nodes))
    {symbols : List Symbol} (h : u.symbols = .ok symbols) :
    u.tree.DeclaresAll name nodes (symbols.map (·.declaration name)) := by
  unfold SourceUnit.symbols at h
  simp only [hroot] at h
  obtain ⟨parts, hparts, h⟩ := except_bind_eq_ok h
  cases h
  exact Tree.declaresAll_of_mapM (fun _ _ hid => Tree.declares_of_symbolsWithin hid) hparts

theorem Acyclic.symbols_eq_error (h : u.Acyclic)
    (hroot : u.tree.kind? u.root = some (.file name nodes)) {fault : Fault}
    (hfault : u.symbols = .error fault) :
    ∃ missing, u.AtTop missing ∧ u.tree.node? missing = none ∧ fault = .noSuchNode missing := by
  unfold SourceUnit.symbols at hfault
  simp only [hroot] at hfault
  rcases except_bind_eq_error hfault with hfault | ⟨parts, -, hfault⟩
  · obtain ⟨id, hid, hfault⟩ := exists_of_mapM_eq_error hfault
    exact h.missing_of_error (.listed hroot hid) List.nodup_nil (List.forall_mem_nil _)
      (Nat.lt_succ_self _) hfault
  · cases hfault

end Collected

end SourceUnit

end BytecodeCompiler
