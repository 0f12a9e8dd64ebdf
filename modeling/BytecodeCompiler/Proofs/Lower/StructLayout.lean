import Mathlib.Data.List.Forall2
import BytecodeCompiler.Tree.Builder
import BytecodeCompiler.Proofs.Lower.Nested
import BytecodeCompiler.Proofs.Tree.Parents

-- Struct literals, from the fields they are built from to the iterable they are lowered to. The
-- members are the expressions of all fields. The layout has the fields whose names are short
-- enough to be encoded, and the others are left out of it without a fault. So the layout and the
-- members belong together exactly if every name is short enough.

namespace BytecodeCompiler

/-! ## Trees that grew -/

namespace Tree

/-- The tree has the nodes of another one, with all that is known about them. Only their parents
may have been found since. -/
def Extends (t' t : Tree) : Prop :=
  ∀ id n, t.node? id = some n → ∃ parent, t'.node? id = some { n with parent }

theorem Extends.refl (t : Tree) : t.Extends t := fun _ n hn => ⟨n.parent, hn⟩

theorem Extends.trans {t t' t'' : Tree} (h' : t''.Extends t') (h : t'.Extends t) :
    t''.Extends t := by
  intro id n hn
  obtain ⟨parent, hn'⟩ := h id n hn
  obtain ⟨parent', hn''⟩ := h' id _ hn'
  exact ⟨parent', hn''⟩

theorem extends_push (t : Tree) (kind : NodeKind) (span : Span) :
    (t.push kind span).2.Extends t := by
  intro id n hn
  have hnode := t.node?_push kind span id
  rw [if_neg (Nat.ne_of_lt (lt_size_of_node? hn)), hn] at hnode
  exact ⟨_, hnode⟩

/-- What is found out about a node that came later changes none of the nodes before it. -/
theorem Extends.infer {t t' : Tree} (h : t'.Extends t) {id : Nat} (hid : t.size ≤ id)
    (f : Inferred → Inferred) : (t'.infer id f).Extends t := by
  intro other n hn
  obtain ⟨parent, hn'⟩ := h other n hn
  have hne : id ≠ other := Nat.ne_of_gt (Nat.lt_of_lt_of_le (lt_size_of_node? hn) hid)
  refine ⟨parent, ?_⟩
  rw [node?, Tree.infer, Array.getElem?_modify, if_neg hne]
  exact hn'

end Tree

/-! ## Building a struct -/

namespace Builder

/-- The position of the next node. -/
def span (b : Builder) : Span := ⟨b.file, b.line, b.col, 1⟩

/-- The type that the builder takes a node to have. -/
def tyOf (b : Builder) (id : NodeId) : Ty := (Build.tyOf id b).1

/-- The builder after a node of a known type was added. -/
def addTyped (b : Builder) (kind : NodeKind) (ty : Ty) : Builder :=
  { b with tree := (b.tree.push kind b.span).2.infer b.tree.size fun info =>
      { info with ty := some ty } }

variable (b : Builder) (kind : NodeKind) (ty : Ty)

theorem size_addTyped : (b.addTyped kind ty).tree.size = b.tree.size + 1 := by
  simp [addTyped, Tree.infer, Tree.push, Tree.size, Tree.size_foldl_adopt]

theorem extends_addTyped : (b.addTyped kind ty).tree.Extends b.tree :=
  (b.tree.extends_push kind b.span).infer (Nat.le_refl _) _

theorem node?_addTyped : (b.addTyped kind ty).tree.node? b.tree.size =
    some ⟨kind, b.span, none, { Inferred.empty with ty := some ty }⟩ := by
  have hnew : (b.tree.push kind b.span).2.node? b.tree.size =
      some ⟨kind, b.span, none, .empty⟩ := by
    rw [Tree.node?_push, if_pos rfl]
  rw [Tree.node?] at hnew
  rw [Tree.node?, addTyped, Tree.infer, Array.getElem?_modify, if_pos rfl, hnew]
  rfl

variable {b}

/-- The type of a node that is there stays what it is. -/
theorem tyOf_of_extends {b' : Builder} (h : b'.tree.Extends b.tree) {id : Nat}
    (hid : id < b.tree.size) : b'.tyOf id = b.tyOf id := by
  obtain ⟨n, hn⟩ := Tree.node?_of_lt_size hid
  obtain ⟨parent, hn'⟩ := h id n hn
  have hsame : ((b'.tree.node? id).bind (·.info.ty)).getD .any =
      ((b.tree.node? id).bind (·.info.ty)).getD .any := by
    rw [hn, hn']
    rfl
  exact hsame

end Builder

namespace Build

/-- The expressions of the fields are there when they are taken: each is in the tree already, or it
is an attribute that was added for an earlier field. -/
def Taken (b : Builder) (fields : List (String × NodeId)) : Prop :=
  ∀ (i : Nat) (name : String) (expr : Nat), fields[i]? = some (name, expr) →
    expr < b.tree.size + i

/-- The attribute was added for the field, and its field of the layout is there if the name is
short enough. -/
structure AttrOf (b : Builder) (f : String × NodeId) (attr : NodeId × Option (Ident × Ty)) :
    Prop where
  node : ∃ n, b.tree.node? attr.1 = some n ∧ n.kind = .structAttr f.1 f.2
  field : attr.2 = (Ident.ofName? f.1).map fun i => (i, b.tyOf f.2)
  taken : f.2 < b.tree.size

theorem AttrOf.of_extends {b b' : Builder} (h : b'.tree.Extends b.tree)
    (hsize : b.tree.size ≤ b'.tree.size) {f : String × NodeId}
    {attr : NodeId × Option (Ident × Ty)} (hattr : AttrOf b f attr) : AttrOf b' f attr where
  node := by
    obtain ⟨n, hn, hkind⟩ := hattr.node
    obtain ⟨parent, hn'⟩ := h _ n hn
    exact ⟨_, hn', hkind⟩
  field := by rw [Builder.tyOf_of_extends h hattr.taken, hattr.field]
  taken := Nat.lt_of_lt_of_le hattr.taken hsize

theorem AttrOf.addTyped {b : Builder} {f : String × NodeId} {attr : NodeId × Option (Ident × Ty)}
    (hattr : AttrOf b f attr) (kind : NodeKind) (ty : Ty) : AttrOf (b.addTyped kind ty) f attr :=
  hattr.of_extends (b.extends_addTyped kind ty) (by
    rw [Builder.size_addTyped]
    exact Nat.le_succ _)

/-- The builder after an attribute was added. -/
def addAttr (b : Builder) (f : String × NodeId) : Builder :=
  b.addTyped (.structAttr f.1 f.2) (b.tyOf f.2)

theorem attrOf_addAttr {b : Builder} {f : String × NodeId} (h : f.2 < b.tree.size) :
    AttrOf (addAttr b f) f (b.tree.size, (Ident.ofName? f.1).map fun i => (i, b.tyOf f.2)) where
  node := ⟨_, b.node?_addTyped _ _, rfl⟩
  field := by rw [addAttr, Builder.tyOf_of_extends (b.extends_addTyped _ _) h]
  taken := by
    rw [addAttr, Builder.size_addTyped]
    exact Nat.lt_succ_of_lt h

/-- Add the attributes of a struct. -/
def structAttrs (fields : List (String × NodeId)) : Build (List (NodeId × Option (Ident × Ty))) :=
  fields.mapM fun (name, expr) => structAttr name expr

theorem structAttrs_cons (f : String × NodeId) (fields : List (String × NodeId)) (b : Builder) :
    structAttrs (f :: fields) b =
      ((b.tree.size, (Ident.ofName? f.1).map fun i => (i, b.tyOf f.2)) ::
        (structAttrs fields (addAttr b f)).1, (structAttrs fields (addAttr b f)).2) := by
  rw [structAttrs, List.mapM_cons]
  rfl

/-- What the attributes of a struct add to a tree. -/
theorem structAttrs_run {fields : List (String × NodeId)} {b b' : Builder}
    {attrs : List (NodeId × Option (Ident × Ty))} (h : Taken b fields)
    (hrun : structAttrs fields b = (attrs, b')) :
    b'.tree.Extends b.tree ∧ b'.span = b.span ∧ b.tree.size ≤ b'.tree.size ∧
      List.Forall₂ (AttrOf b') fields attrs := by
  induction fields generalizing b attrs with
  | nil =>
    cases hrun
    exact ⟨.refl _, rfl, Nat.le_refl _, .nil⟩
  | cons f fields ih =>
    have hsize : (addAttr b f).tree.size = b.tree.size + 1 := b.size_addTyped _ _
    have hrest : Taken (addAttr b f) fields := by
      intro i name expr hf
      have hlt := h (i + 1) name expr hf
      omega
    rw [structAttrs_cons] at hrun
    cases hrun
    obtain ⟨hext, hspan, hle, hattrs⟩ := ih hrest rfl
    have hfirst := attrOf_addAttr (h 0 f.1 f.2 rfl)
    exact ⟨hext.trans (b.extends_addTyped _ _), hspan, by omega,
      .cons (hfirst.of_extends hext hle) hattrs⟩

/-- The layout with a field for each member. -/
def layoutOf (b : Builder) (fields : List (String × NodeId)) : List (Ident × Ty) :=
  fields.map fun f => (.name f.1, b.tyOf f.2)

/-- Whether the name of a field is short enough to be encoded. -/
def fits (f : String × NodeId) : Bool := decide (f.1.utf8ByteSize ≤ Ident.maxName)

theorem filterMap_attrs {b : Builder} {fields : List (String × NodeId)}
    {attrs : List (NodeId × Option (Ident × Ty))} (h : List.Forall₂ (AttrOf b) fields attrs) :
    attrs.filterMap (·.2) = layoutOf b (fields.filter fits) := by
  induction h with
  | nil => rfl
  | @cons f attr fields attrs hattr _ ih =>
    rw [List.filterMap_cons, hattr.field, Ident.ofName?, List.filter_cons, ih]
    by_cases hfits : f.1.utf8ByteSize ≤ Ident.maxName <;> simp [fits, hfits, layoutOf]

/-- A layout has a field for each member exactly if every name fits. -/
theorem layoutOf_filter_eq_iff (b : Builder) (fields : List (String × NodeId)) :
    layoutOf b (fields.filter fits) = layoutOf b fields ↔ ∀ f ∈ fields, fits f = true := by
  constructor
  · intro h
    have hlength := congrArg List.length h
    rw [layoutOf, layoutOf, List.length_map, List.length_map] at hlength
    exact List.length_filter_eq_length_iff.mp hlength
  · intro h
    rw [List.filter_eq_self.mpr h]

theorem length_layoutOf_filter_eq_iff (b : Builder) (fields : List (String × NodeId)) :
    (layoutOf b (fields.filter fits)).length = fields.length ↔ ∀ f ∈ fields, fits f = true := by
  rw [layoutOf, List.length_map, List.length_filter_eq_length_iff]

theorem struct_eq (fields : List (String × NodeId)) (b : Builder) :
    Build.struct fields b = ((structAttrs fields b).2.tree.size,
      (structAttrs fields b).2.addTyped (.struct ((structAttrs fields b).1.map (·.1)))
        (.struct ((structAttrs fields b).1.filterMap (·.2)))) := rfl

/-- What a struct is in the tree it is built in: a node with an attribute for every field, and with
the layout of the fields whose names fit. -/
theorem struct_run {fields : List (String × NodeId)} {b b' : Builder} {id : NodeId}
    (h : Taken b fields) (hbuilt : Build.struct fields b = (id, b')) : b'.tree.Extends b.tree ∧
    ∃ ids, b'.tree.node? id = some ⟨.struct ids, b.span, none,
        { Inferred.empty with ty := some (.struct (layoutOf b' (fields.filter fits))) }⟩ ∧
      List.Forall₂ (fun f attr => ∃ n, b'.tree.node? attr = some n ∧
        n.kind = .structAttr f.1 f.2) fields ids := by
  obtain ⟨attrs, b₁, hrun⟩ : ∃ attrs b₁, structAttrs fields b = (attrs, b₁) := ⟨_, _, rfl⟩
  obtain ⟨hext, hspan, -, hattrs⟩ := structAttrs_run h hrun
  have hlast : Build.struct fields b = (b₁.tree.size,
      b₁.addTyped (.struct (attrs.map (·.1))) (.struct (attrs.filterMap (·.2)))) := by
    rw [struct_eq, hrun]
  rw [hlast] at hbuilt
  cases hbuilt
  have hkept : List.Forall₂ (AttrOf (b₁.addTyped (.struct (attrs.map (·.1)))
      (.struct (attrs.filterMap (·.2))))) fields attrs :=
    hattrs.imp fun _ _ hattr => hattr.addTyped _ _
  refine ⟨(b₁.extends_addTyped _ _).trans hext, attrs.map (·.1), ?_, ?_⟩
  · rw [Builder.node?_addTyped, hspan, ← filterMap_attrs hkept]
  · rw [List.forall₂_map_right_iff]
    exact hkept.imp fun _ _ hattr => hattr.node

end Build

/-! ## Lowering a struct -/

namespace Lower

variable {σ : Type} {t : Tree} {walk : Walk σ}

/-- Attributes are lowered by lowering their expressions. -/
theorem attrs_eq_operands {fields : List (String × NodeId)} {ids : List NodeId}
    (h : List.Forall₂ (fun f attr => ∃ n, t.node? attr = some n ∧ n.kind = .structAttr f.1 f.2)
      fields ids) : attrs t walk ids = operands t walk (fields.map Prod.snd) := by
  induction h with
  | nil => rfl
  | @cons f attr fields ids hattr _ ih =>
    obtain ⟨n, hn, hkind⟩ := hattr
    rw [attrs, attrExpr, nodeAt_eq hn, pure_bind, hkind, pure_bind, ih]
    rfl

theorem length_of_operands {ids : List NodeId} {members : List Instr} {s s' : LowerState σ}
    (h : operands t walk ids s = .ok members s') : members.length = ids.length := by
  induction ids generalizing members s s' with
  | nil =>
    cases h
    rfl
  | cons id ids ih =>
    obtain ⟨first, s₁, -, hrest⟩ := bind_eq_ok h
    obtain ⟨others, s₂, hothers, hlast⟩ := bind_eq_ok hrest
    cases hlast
    rw [List.length_cons, List.length_cons, ih hothers]

variable [NameSupply σ]

/-- A struct is lowered to its layout and its members. No name makes it fail. -/
theorem rule_struct {fields : List (String × NodeId)} {b b' : Builder} {id : NodeId}
    (h : Build.Taken b fields) (hbuilt : Build.struct fields b = (id, b'))
    (ht : t.Extends b'.tree) (walk : Walk σ) :
    rule t walk id = (do
      let members ← operands t walk (fields.map Prod.snd)
      return some (.iterable (.struct (Build.layoutOf b' (fields.filter Build.fits))) members
        b.span)) := by
  obtain ⟨-, ids, hn, hattrs⟩ := Build.struct_run h hbuilt
  obtain ⟨parent, hn'⟩ := ht id _ hn
  have hattrs' : List.Forall₂ (fun f attr => ∃ n, t.node? attr = some n ∧
      n.kind = .structAttr f.1 f.2) fields ids := by
    refine hattrs.imp fun f attr ⟨n, ha, hkind⟩ => ?_
    obtain ⟨parent, ha'⟩ := ht attr n ha
    exact ⟨_, ha', hkind⟩
  rw [rule, nodeAt_eq hn', pure_bind]
  change (struct t walk _ ids >>= fun i => pure (some i)) = _
  simp only [struct, attrs_eq_operands hattrs', bind_assoc, pure_bind]
  rfl

/-- A struct is lowered exactly if its expressions are, however long its names are. The iterable has
a member for every field. Its layout has the field of a member if the name is short enough. So the
layout and the members belong together exactly if every name is short enough. -/
theorem struct_aligned_iff_names_fit {fields : List (String × NodeId)} {b b' : Builder}
    {id : NodeId} (h : Build.Taken b fields) (hbuilt : Build.struct fields b = (id, b'))
    (ht : t.Extends b'.tree) (s : LowerState σ) :
    (∀ fault s', node t id s = .error fault s' ↔
      operands t (within t t.size) (fields.map Prod.snd) s = .error fault s') ∧
    ∀ result s', node t id s = .ok result s' ↔ ∃ layout members,
      result = some (.iterable (.struct layout) members b.span) ∧
      operands t (within t t.size) (fields.map Prod.snd) s = .ok members s' ∧
      members.length = fields.length ∧
      layout = Build.layoutOf b' (fields.filter Build.fits) ∧
      (layout = Build.layoutOf b' fields ↔ ∀ f ∈ fields, f.1.utf8ByteSize ≤ Ident.maxName) ∧
      (layout.length = members.length ↔ ∀ f ∈ fields, f.1.utf8ByteSize ≤ Ident.maxName) := by
  have hrun := congrFun (rule_struct h hbuilt ht (within t t.size)) s
  have hnode : node t id s = rule t (within t t.size) id s := rfl
  have hfits : (∀ f ∈ fields, Build.fits f = true) ↔
      ∀ f ∈ fields, f.1.utf8ByteSize ≤ Ident.maxName := by
    simp only [Build.fits, decide_eq_true_eq]
  rw [hnode, hrun]
  cases hmembers : operands t (within t t.size) (fields.map Prod.snd) s with
  | error fault s₁ =>
    rw [bind_of_error hmembers]
    simp
  | ok members s₁ =>
    have hlength : members.length = fields.length := by
      rw [length_of_operands hmembers, List.length_map]
    rw [bind_of_ok hmembers]
    refine ⟨fun fault s' => ⟨(nomatch ·), (nomatch ·)⟩, fun result s' => ⟨?_, ?_⟩⟩
    · intro hok
      cases hok
      refine ⟨_, members, rfl, rfl, hlength, rfl, ?_, ?_⟩
      · rw [Build.layoutOf_filter_eq_iff, hfits]
      · rw [hlength, Build.length_layoutOf_filter_eq_iff, hfits]
    · rintro ⟨layout, members', rfl, hok, -, rfl, -, -⟩
      cases hok
      rfl

/-- A builder with the number one in it. -/
def oneBuilt : Builder := (Build.literal (.int 1) (.ofFile 1)).2

/-- The operand of the number. -/
def one : Instr := .value (.int 1) oneBuilt.span

theorem operands_one (ht : t.Extends oneBuilt.tree) (ids : List NodeId) (h : ∀ id ∈ ids, id = 0)
    (s : LowerState σ) :
    operands t (within t t.size) ids s = .ok (ids.map fun _ => one) s := by
  induction ids with
  | nil => rfl
  | cons id ids ih =>
    obtain ⟨rfl, hids⟩ := List.forall_mem_cons.mp h
    obtain ⟨parent, hn⟩ := ht 0 _ rfl
    obtain ⟨steps, hsteps⟩ := Nat.exists_eq_add_of_lt (Tree.lt_size_of_node? hn)
    have hfirst : operand t (within t t.size) 0 s = .ok one s := by
      rw [operand, hsteps, within, rule, nodeAt_eq hn]
      rfl
    rw [operands, bind_of_ok hfirst, bind_of_ok (ih hids)]
    rfl

theorem taken_oneBuilt {fields : List (String × NodeId)} (h : ∀ f ∈ fields, f.2 = 0) :
    Build.Taken oneBuilt fields := by
  intro i name expr hf
  have hzero : expr = 0 := h _ (List.mem_of_getElem? hf)
  have hsize : oneBuilt.tree.size = 1 := rfl
  omega

/-- A struct with the number as every member. -/
theorem node_struct_ones {fields : List (String × NodeId)} (h : ∀ f ∈ fields, f.2 = 0)
    {b : Builder} {id : NodeId} (hbuilt : Build.struct fields oneBuilt = (id, b))
    (s : LowerState σ) :
    node b.tree id s = .ok (some (.iterable (.struct (Build.layoutOf b (fields.filter Build.fits)))
      (fields.map fun _ => one) oneBuilt.span)) s := by
  have htaken := taken_oneBuilt h
  have hids : ∀ id ∈ fields.map Prod.snd, id = 0 := by
    intro id hid
    obtain ⟨f, hf, rfl⟩ := List.mem_map.mp hid
    exact h f hf
  have hmembers := operands_one (Build.struct_run htaken hbuilt).1 _ hids s
  have hrun := congrFun (rule_struct htaken hbuilt (.refl b.tree) (within b.tree b.tree.size)) s
  rw [bind_of_ok hmembers, List.map_map] at hrun
  exact hrun

/-- A name of one byte too many. -/
def overlong : String := String.ofList (List.replicate 256 'a')

theorem not_overlong_le : ¬ overlong.utf8ByteSize ≤ Ident.maxName := by decide +kernel

theorem fits_overlong (expr : NodeId) : Build.fits (overlong, expr) = false :=
  decide_eq_false not_overlong_le

theorem struct_aligned_iff_names_fit_overlong :
    let fields := [(overlong, 0), ("x", 0)]
    let s : LowerState SequentialNames := .ofNames .start
    Build.Taken oneBuilt fields ∧ ∃ id b layout, Build.struct fields oneBuilt = (id, b) ∧
      node b.tree id s = .ok (some (.iterable (.struct layout) [one, one] oneBuilt.span)) s ∧
      layout = Build.layoutOf b [("x", 0)] ∧ layout ≠ Build.layoutOf b fields ∧
      layout.length ≠ [one, one].length := by
  intro fields s
  have hzero : ∀ f ∈ fields, f.2 = 0 := by simp [fields]
  obtain ⟨id, b, hbuilt⟩ : ∃ id b, Build.struct fields oneBuilt = (id, b) := ⟨_, _, rfl⟩
  have hrun := node_struct_ones hzero hbuilt s
  obtain ⟨layout, members, -, -, hlength, hlayout, haligned, hcount⟩ :=
    ((struct_aligned_iff_names_fit (taken_oneBuilt hzero) hbuilt (.refl b.tree) s).2 _ _).mp hrun
  have hlong : ¬ ∀ f ∈ fields, f.1.utf8ByteSize ≤ Ident.maxName :=
    fun hall => not_overlong_le (hall (overlong, 0) List.mem_cons_self)
  rw [← hlayout] at hrun
  rw [hlength] at hcount
  refine ⟨taken_oneBuilt hzero, id, b, layout, hbuilt, hrun, ?_, fun h => hlong (haligned.mp h),
    fun h => hlong (hcount.mp h)⟩
  rw [hlayout, List.filter_cons, fits_overlong]
  rfl

/-- A struct with one member whose name is too long is lowered to a layout without fields. -/
theorem overlong_name_left_out :
    ∃ id b, Build.struct [(overlong, 0)] oneBuilt = (id, b) ∧
      node b.tree id (.ofNames .start : LowerState SequentialNames) =
        .ok (some (.iterable (.struct []) [one] oneBuilt.span)) (.ofNames .start) := by
  obtain ⟨id, b, hbuilt⟩ : ∃ id b, Build.struct [(overlong, 0)] oneBuilt = (id, b) := ⟨_, _, rfl⟩
  refine ⟨id, b, hbuilt, ?_⟩
  rw [node_struct_ones (by simp) hbuilt, List.filter_cons, fits_overlong]
  rfl

end Lower

end BytecodeCompiler
