import BytecodeCompiler.Proofs.Lower.ForInRuns
import BytecodeCompiler.Proofs.Lower.Guards

-- A chain of conditions runs the block of the first branch that has a true condition. The guards
-- of all conditions come first, then the else block, then the labelled blocks, so the code does not
-- follow the order of the source. The chain may stand anywhere in a block, and its conditions and
-- blocks may do anything in their own rows.

namespace BytecodeCompiler

/-! ## The code of a chain -/

/-- The code of a branch: its label, its conditions, and the code of its block. -/
structure BranchCode where
  label : Ident
  tests : List Test
  inside : List Instr

/-- The labelled block. It jumps to the end of the chain if there are more behind it. -/
def BranchCode.landing (b : BranchCode) (finish : Ident) (span : Span) (more : Bool) :
    List Instr :=
  .label b.label span :: (b.inside ++ if more then [.jump finish span] else [])

/-- The labelled blocks of some branches. -/
def BranchCode.landings (finish : Ident) (span : Span) (bs : List BranchCode) : List Instr :=
  bs.zipIdx.flatMap fun (b, j) => b.landing finish span (j + 1 < bs.length)

/-- A condition in a chain: the number and the label of its branch, and its code. -/
structure ChainTest where
  branch : Nat
  label : Ident
  test : Test

/-- The parts of a chain. Conditions are counted over all branches. -/
inductive ChainPart where
  | test (i : Nat)
  | otherwise
  | branch (j : Nat)
  | finish
deriving DecidableEq

/-- The code of a chain, by its parts. -/
structure ChainCode where
  finish : Ident
  span : Span
  branches : List BranchCode
  /-- The code of the else block. -/
  otherwise : List Instr

namespace ChainCode

variable (c : ChainCode)

/-- All conditions, in the order of the source. -/
def tests : List ChainTest :=
  c.branches.zipIdx.flatMap fun (b, j) => b.tests.map fun test => ⟨j, b.label, test⟩

/-- The parts of the code, as they stand: the guards, the else block, the labelled blocks, and the
label of the end. -/
def parts : Parts ChainPart :=
  (c.tests.mapIdx fun i g => ⟨.test i, g.test.guarded true c.span g.label⟩) ++
    (⟨.otherwise, c.otherwise ++ [.jump c.finish c.span]⟩ ::
      ((c.branches.mapIdx fun j b =>
        ⟨.branch j, b.landing c.finish c.span (j + 1 < c.branches.length)⟩) ++
        [⟨.finish, [.label c.finish c.span]⟩]))

/-- The rows of the chain. -/
def rows : List Instr := c.parts.rows

/-- The conditions with where they stand, if the chain starts at the position. -/
def placed (pos : Nat) : List (Nat × Test) :=
  c.tests.mapIdx fun i g => (pos + c.parts.start (.test i), g.test)

/-- Where the code of the else block starts. -/
def elseAt : Nat := c.parts.start .otherwise

/-- Where the code of the block of a branch starts, behind its label. -/
def branchAt (j : Nat) : Nat := c.parts.start (.branch j) + 1

/-- The run passes these parts and the label of the end, and goes on behind it. -/
def Leaves {ω : Type} (host : Host ω) (block : List Instr) (pos : Nat) (start : Store ω)
    (log : List ChainPart) (final : Store ω) : Prop :=
  c.parts.Passes host block pos ⟨pos, start⟩ (log ++ [.finish]) ⟨pos + c.rows.length, final⟩

end ChainCode

/-- The code of a branch is what its conditions and its block are lowered to. -/
def BranchCode.LoweredFrom {σ : Type} (t : Tree) (walk : Lower.Walk σ) (id : NodeId)
    (b : BranchCode) : Prop :=
  ∃ n conds block elseIfs elseBlock, t.node? id = some n ∧
    n.kind = .ifChain conds block elseIfs elseBlock ∧
    List.Forall₂ (Test.LoweredFrom t walk) conds b.tests ∧
    ∃ r, Lower.Appends (walk block) r b.inside

/-- The code of a chain is what its branches and its else block are lowered to. -/
structure ChainCode.LoweredFrom {σ : Type} (c : ChainCode) (t : Tree) (walk : Lower.Walk σ)
    (ids : List NodeId) (elseBlock : Option NodeId) : Prop where
  branches : List.Forall₂ (BranchCode.LoweredFrom t walk) ids c.branches
  otherwise : Lower.Appends (Lower.all walk elseBlock.toList) () c.otherwise

/-! ## Where the parts stand -/

namespace ChainCode

variable (c : ChainCode)

theorem names_parts : c.parts.names = (List.range c.tests.length).map .test ++
    (.otherwise :: ((List.range c.branches.length).map .branch ++ [.finish])) := by
  unfold parts
  rw [Parts.names_append, Parts.names_mapIdx, Parts.names_cons, Parts.names_append,
    Parts.names_mapIdx]
  rfl

theorem nodup_names : c.parts.names.Nodup := by
  have htest : Function.Injective ChainPart.test := fun _ _ h => ChainPart.test.inj h
  have hbranch : Function.Injective ChainPart.branch := fun _ _ h => ChainPart.branch.inj h
  rw [names_parts, List.nodup_append]
  refine ⟨List.nodup_range.map htest, ?_, ?_⟩
  · simp [List.nodup_append, List.nodup_range.map hbranch]
  · intro p hp q hq
    obtain ⟨i, -, rfl⟩ := List.mem_map.mp hp
    rintro rfl
    simp at hq

variable {c} {i j : Nat} {g : ChainTest} {b : BranchCode}

theorem part_test (hi : c.tests[i]? = some g) :
    c.parts[i]? = some ⟨.test i, g.test.guarded true c.span g.label⟩ := by
  have hlt : i < c.tests.length := (List.getElem?_eq_some_iff.mp hi).1
  unfold parts
  rw [List.getElem?_append_left (by simpa using hlt)]
  simp [hi]

theorem part_otherwise :
    c.parts[c.tests.length]? = some ⟨.otherwise, c.otherwise ++ [.jump c.finish c.span]⟩ := by
  simp [parts]

theorem part_branch (hj : c.branches[j]? = some b) : c.parts[c.tests.length + 1 + j]? =
    some ⟨.branch j, b.landing c.finish c.span (j + 1 < c.branches.length)⟩ := by
  have hlt : j < c.branches.length := (List.getElem?_eq_some_iff.mp hj).1
  unfold parts
  rw [List.getElem?_append_right (by simp; omega)]
  have hindex : c.tests.length + 1 + j - c.tests.length = j + 1 := by omega
  rw [List.length_mapIdx, hindex, List.getElem?_cons_succ,
    List.getElem?_append_left (by simpa using hlt)]
  simp [hj]

theorem part_finish : c.parts[c.tests.length + 1 + c.branches.length]? =
    some ⟨.finish, [.label c.finish c.span]⟩ := by
  unfold parts
  rw [List.getElem?_append_right (by simp; omega)]
  have hindex : c.tests.length + 1 + c.branches.length - c.tests.length =
    c.branches.length + 1 := by omega
  simp [hindex]

end ChainCode

/-! ## What a chain is lowered to -/

theorem BranchCode.landings_cons (finish : Ident) (span : Span) (b : BranchCode)
    (bs : List BranchCode) : landings finish span (b :: bs) =
      b.landing finish span (0 < bs.length) ++ landings finish span bs := by
  unfold landings
  rw [List.zipIdx_cons', List.flatMap_cons, List.flatMap_map]
  simp

/-- The rows by the parts of the source: the guards of the branches, the else block, the labelled
blocks, and the label of the end. -/
theorem ChainCode.rows_eq (c : ChainCode) : c.rows =
    (c.branches.flatMap fun b => b.tests.flatMap (·.guarded true c.span b.label)) ++
      (c.otherwise ++ ([.jump c.finish c.span] ++
        (BranchCode.landings c.finish c.span c.branches ++ [.label c.finish c.span]))) := by
  have htests : c.tests.flatMap (fun g => g.test.guarded true c.span g.label) =
      c.branches.flatMap fun b => b.tests.flatMap (·.guarded true c.span b.label) := by
    unfold tests
    rw [List.flatMap_assoc]
    simp only [List.flatMap_map]
    exact flatMap_zipIdx c.branches fun b => b.tests.flatMap (·.guarded true c.span b.label)
  have hguards : Parts.rows (c.tests.mapIdx fun i g =>
      ⟨ChainPart.test i, g.test.guarded true c.span g.label⟩) = _ :=
    (Parts.rows_numbered ..).trans htests
  unfold rows parts
  rw [Parts.rows_append, hguards, Parts.rows_cons, Parts.rows_append, Parts.rows_mapIdx]
  simp [Parts.rows, BranchCode.landings]

/-- What a branch is known by before its block is lowered. -/
structure BranchHead where
  label : Ident
  tests : List Test
  block : NodeId

/-- The head of a branch is what its conditions are lowered to. -/
def BranchHead.LoweredFrom {σ : Type} (t : Tree) (walk : Lower.Walk σ) (id : NodeId)
    (h : BranchHead) : Prop :=
  ∃ n conds elseIfs elseBlock, t.node? id = some n ∧
    n.kind = .ifChain conds h.block elseIfs elseBlock ∧
    List.Forall₂ (Test.LoweredFrom t walk) conds h.tests

/-- A branch has the head, and the code that the block is lowered to. -/
structure BranchHead.Heads {σ : Type} (walk : Lower.Walk σ) (h : BranchHead) (b : BranchCode) :
    Prop where
  label : b.label = h.label
  tests : b.tests = h.tests
  inside : ∃ r, Lower.Appends (walk h.block) r b.inside

namespace BranchHead

variable {σ : Type} {t : Tree} {walk : Lower.Walk σ} {heads : List BranchHead}
  {bs : List BranchCode}

theorem loweredFrom_of_heads {ids : List NodeId} (h : List.Forall₂ (LoweredFrom t walk) ids heads)
    (hbs : List.Forall₂ (Heads walk) heads bs) :
    List.Forall₂ (BranchCode.LoweredFrom t walk) ids bs := by
  induction h generalizing bs with
  | nil =>
    cases hbs
    exact .nil
  | cons hfirst _ ih =>
    cases hbs with
    | cons hb hbs =>
      obtain ⟨n, conds, elseIfs, elseBlock, hn, hkind, htests⟩ := hfirst
      rw [← hb.tests] at htests
      exact .cons ⟨n, conds, _, elseIfs, elseBlock, hn, hkind, htests, hb.inside⟩ (ih hbs)

theorem guards_of_heads (span : Span) (hbs : List.Forall₂ (Heads walk) heads bs) :
    (heads.flatMap fun h => h.tests.flatMap (·.guarded true span h.label)) =
      bs.flatMap fun b => b.tests.flatMap (·.guarded true span b.label) := by
  induction hbs with
  | nil => rfl
  | cons hb _ ih => rw [List.flatMap_cons, List.flatMap_cons, ih, hb.label, hb.tests]

end BranchHead

namespace Lower

variable {σ : Type} [NameSupply σ] {t : Tree} {walk : Walk σ}

/-- The guards of the branches, and what is known of the branches behind them. -/
theorem emits_heads (hwalk : Careful walk) (span : Span) (ids : List NodeId) :
    Emits (branches t walk span ids) fun made blocks => ∃ heads : List BranchHead,
      blocks = heads.map (fun h => (h.label, h.block)) ∧
      made = (heads.flatMap fun h => h.tests.flatMap (·.guarded true span h.label)) ∧
      List.Forall₂ (BranchHead.LoweredFrom t walk) ids heads := by
  induction ids with
  | nil => exact emits_pure ⟨[], rfl, rfl, .nil⟩
  | cons id ids ih =>
    apply (emits_nodeAt t id).bind
    rintro n _ ⟨rfl, hn⟩
    split
    · rename_i conds block elseIfs elseBlock hkind
      apply emits_fresh.bind
      rintro label _ rfl
      apply (emits_guards hwalk span true label conds).bind
      rintro _ _ ⟨tests, rfl, htests⟩
      apply ih.bind
      rintro _ _ ⟨heads, rfl, rfl, hheads⟩
      apply emits_pure
      exact ⟨⟨label, tests, block⟩ :: heads, rfl, by simp,
        .cons ⟨n, conds, elseIfs, elseBlock, hn, hkind, htests⟩ hheads⟩
    · exact emits_throw _

/-- The labelled blocks behind their heads. -/
theorem emits_landings (hwalk : Careful walk) (span : Span) (finish : Ident)
    (heads : List BranchHead) :
    Emits (labelled walk span finish (heads.map fun h => (h.label, h.block))) fun made _ =>
      ∃ bs : List BranchCode, made = BranchCode.landings finish span bs ∧
        List.Forall₂ (BranchHead.Heads walk) heads bs := by
  induction heads with
  | nil => exact emits_pure ⟨[], rfl, .nil⟩
  | cons h heads ih =>
    cases heads with
    | nil =>
      apply (emits_row _).bind
      rintro _ _ rfl
      apply (hwalk h.block).emits.bind
      intro r inside hinside
      apply emits_pure
      exact ⟨[⟨h.label, h.tests, inside⟩], by simp [BranchCode.landings, BranchCode.landing],
        .cons ⟨rfl, rfl, r, hinside⟩ .nil⟩
    | cons next heads =>
      apply (emits_row _).bind
      rintro _ _ rfl
      apply (hwalk h.block).emits.bind
      intro r inside hinside
      apply (emits_row _).bind
      rintro _ _ rfl
      apply ih.weaken
      rintro _ _ ⟨bs, rfl, hbs⟩
      have hmore : 0 < bs.length := by
        rw [← hbs.length_eq]
        exact Nat.succ_pos _
      refine ⟨⟨h.label, h.tests, inside⟩ :: bs, ?_, .cons ⟨rfl, rfl, r, hinside⟩ hbs⟩
      rw [BranchCode.landings_cons]
      simp [BranchCode.landing, hmore]

/-- A chain is lowered to rows with these parts. -/
theorem emits_chain (hwalk : Careful walk) (id : NodeId) (n : Node) (elseIfs : List NodeId)
    (elseBlock : Option NodeId) :
    Emits (ifChain t walk id n elseIfs elseBlock) fun made _ =>
      ∃ c : ChainCode, made = c.rows ∧ c.LoweredFrom t walk (id :: elseIfs) elseBlock := by
  apply emits_fresh.bind
  rintro finish _ rfl
  apply (emits_heads hwalk n.span (id :: elseIfs)).bind
  rintro _ _ ⟨heads, rfl, rfl, hheads⟩
  apply (neutral_all hwalk elseBlock.toList).emits.bind
  intro _ otherwise hotherwise
  apply (emits_row _).bind
  rintro _ _ rfl
  apply (emits_landings hwalk n.span finish heads).bind
  rintro _ _ ⟨bs, rfl, hbs⟩
  apply emits_push
  refine ⟨⟨finish, n.span, bs, otherwise⟩, ?_, BranchHead.loweredFrom_of_heads hheads hbs,
    hotherwise⟩
  rw [ChainCode.rows_eq, BranchHead.guards_of_heads n.span hbs]
  rfl

theorem emitted_chain {id : NodeId} {n : Node} {conds : List NodeId} {block : NodeId}
    {elseIfs : List NodeId} {elseBlock : Option NodeId} (hn : t.node? id = some n)
    (hkind : n.kind = .ifChain conds block elseIfs elseBlock) {steps : Nat} {s s' : LowerState σ}
    {r : Option Instr} (h : within t (steps + 1) id s = .ok r s') :
    ∃ c : ChainCode, s'.out.toList = s.out.toList ++ c.rows ∧
      c.LoweredFrom t (within t steps : Walk σ) (id :: elseIfs) elseBlock := by
  have hrule : (within t (steps + 1) id : Lower σ (Option Instr)) =
      statement (ifChain t (within t steps) id n elseIfs elseBlock) := by
    show rule t (within t steps) id = _
    simp only [rule, nodeAt, hn, pure_bind, hkind]
  rw [hrule] at h
  obtain ⟨_, s₁, hchain, hnone⟩ := bind_eq_ok h
  cases hnone
  obtain ⟨_, hout, c, rfl, hc⟩ :=
    emits_chain (careful_within t steps) id n elseIfs elseBlock s _ s' hchain
  exact ⟨c, hout, hc⟩

end Lower

/-! ## Runs -/

namespace ChainCode

variable {ω : Type} {c : ChainCode} {host : Host ω} {block : List Instr} {pos j : Nat}
  {b : BranchCode} {s s' : Store ω}

/-- The number of the part with the label of the end. -/
def finishPart (c : ChainCode) : Nat := c.tests.length + 1 + c.branches.length

/-- The run goes on behind the label of the end. -/
theorem passes_finish (h : c.parts.Placed block pos) (s : Store ω) :
    c.parts.Passes host block pos ⟨pos + c.parts.offset c.finishPart, s⟩ [.finish]
      ⟨pos + c.rows.length, s⟩ := by
  have hlast : c.finishPart + 1 = c.parts.length := by
    simp [finishPart, parts]
    omega
  have hpasses : c.parts.Passes host block pos _ _ _ := h.passes_label part_finish s
  rwa [← finishPart, hlast, Parts.offset_length] at hpasses

/-- The else block leads to the end. -/
theorem passes_otherwise (h : c.parts.Placed block pos)
    (hrun : host.FallsThrough block (pos + c.elseAt) c.otherwise s s') :
    c.parts.Passes host block pos ⟨pos + c.parts.offset c.tests.length, s⟩ [.otherwise]
      ⟨pos + c.parts.offset c.finishPart, s'⟩ := by
  rw [elseAt, Parts.start_eq c.nodup_names part_otherwise] at hrun
  apply h.passes_jump part_otherwise part_finish _ hrun
  omega

/-- The block of a branch leads to the end, with a jump or without one. -/
theorem passes_branch (h : c.parts.Placed block pos) (hj : c.branches[j]? = some b)
    (hrun : host.FallsThrough block (pos + c.branchAt j) b.inside s s') :
    c.parts.Passes host block pos ⟨pos + c.parts.offset (c.tests.length + 1 + j), s⟩ [.branch j]
      ⟨pos + c.parts.offset c.finishPart, s'⟩ := by
  have hpart := part_branch hj
  have hlt : j < c.branches.length := (List.getElem?_eq_some_iff.mp hj).1
  have hstands := Parts.stands_part h.stands hpart
  have hlabel : host.step block ⟨pos + c.parts.offset (c.tests.length + 1 + j), s⟩ =
      some ⟨pos + c.parts.offset (c.tests.length + 1 + j) + 1, s⟩ :=
    Host.step_next hstands.row rfl
  have hinside : host.FallsThrough block (pos + c.parts.offset (c.tests.length + 1 + j))
      (.label b.label c.span :: b.inside) s s' := by
    rw [branchAt, Parts.start_eq c.nodup_names hpart, ← Nat.add_assoc] at hrun
    unfold Host.FallsThrough
    rw [List.length_cons, Nat.add_comm b.inside.length, ← Nat.add_assoc]
    apply Host.RunsIn.next (Nat.le_refl _) _ hlabel (hrun.widen (Nat.le_succ _) (Nat.le_refl _))
    simp
    omega
  by_cases hmore : j + 1 < c.branches.length
  · have hlanding : b.landing c.finish c.span (j + 1 < c.branches.length) =
        .label b.label c.span :: b.inside ++ [.jump c.finish c.span] := by
      simp [BranchCode.landing, hmore]
    rw [hlanding] at hpart
    apply h.passes_jump hpart part_finish _ hinside
    omega
  · -- The last block ends where the label of the end stands.
    have hlanding : b.landing c.finish c.span (j + 1 < c.branches.length) =
        .label b.label c.span :: b.inside := by
      simp [BranchCode.landing, hmore]
    have hlast : c.finishPart = c.tests.length + 1 + j + 1 := by
      unfold finishPart
      omega
    rw [hlanding] at hpart
    rw [hlast]
    exact h.passes hpart (by simp) hinside

/-- As long as no condition is true, each one is asked once, in order. -/
theorem passes_tests {k : Nat} (h : c.parts.Placed block pos)
    (htests : AllYield host block (c.placed pos) false k s s') :
    c.parts.Passes host block pos ⟨pos, s⟩ ((List.range k).map .test)
      ⟨pos + c.parts.offset k, s'⟩ := by
  have hnone : AllYield host block (c.placed pos) (!true) k s s' := htests
  have hparts : ∀ i row test, (c.placed pos)[i]? = some (row, test) →
      row = pos + c.parts.offset (0 + i) ∧
      ∃ label, c.parts[0 + i]? = some ⟨.test i, test.guarded true c.span label⟩ := by
    intro i row test hi
    obtain ⟨g, hg, hplace⟩ : ∃ g, c.tests[i]? = some g ∧
        (pos + c.parts.start (.test i), g.test) = (row, test) := by
      simpa [placed] using hi
    cases hplace
    rw [Nat.zero_add, Parts.start_eq c.nodup_names (part_test hg)]
    exact ⟨rfl, g.label, part_test hg⟩
  have hpasses := hnone.passes h hparts
  rwa [Nat.zero_add] at hpasses

/-- A condition that is true leads to its branch. -/
theorem passes_true {k : Nat} {g : ChainTest} (h : c.parts.Placed block pos)
    (hk : c.tests[k]? = some g) (hb : c.branches[g.branch]? = some b) (hlabel : b.label = g.label)
    (hyields : g.test.Yields host block (pos + c.parts.start (.test k)) s true s') :
    c.parts.Passes host block pos ⟨pos + c.parts.offset k, s⟩ [.test k]
      ⟨pos + c.parts.offset (c.tests.length + 1 + g.branch), s'⟩ := by
  have hlt : k < c.tests.length := (List.getElem?_eq_some_iff.mp hk).1
  have htest := part_test hk
  have hbranch := part_branch hb
  rw [BranchCode.landing, hlabel] at hbranch
  rw [Parts.start_eq c.nodup_names htest] at hyields
  apply h.passes_to htest hbranch (by omega) (by simp [Test.length_guarded]) (by simp)
  exact hyields.jumps (Parts.stands_part h.stands htest) (h.findIdx? hbranch)

/-- A condition belongs to the branch that it is counted to. -/
theorem branch_of_test {k : Nat} {g : ChainTest} (hk : c.tests[k]? = some g) :
    ∃ b, c.branches[g.branch]? = some b ∧ b.label = g.label ∧ g.test ∈ b.tests := by
  obtain ⟨⟨b, j⟩, hmem, hg⟩ := List.mem_flatMap.mp (List.mem_of_getElem? hk)
  obtain ⟨test, htest, rfl⟩ := List.mem_map.mp hg
  exact ⟨b, List.mem_zipIdx_iff_getElem?.mp hmem, rfl, htest⟩

/-- The chain stands in a block, and none of its labels stands before it. -/
theorem placed_parts {before after : List Instr} (hlabels : (Instr.labelNames c.rows).Nodup)
    (hbefore : ∀ l ∈ Instr.labelNames c.rows, ∀ i ∈ before, i.isLabelOf l = false) :
    c.parts.Placed (before ++ c.rows ++ after) before.length where
  names := c.nodup_names
  labels := hlabels
  stands := ⟨before, after, rfl, rfl⟩
  first := by
    intro l hl i hi
    rw [List.append_assoc, List.take_left] at hi
    exact hbefore l hl i hi

/-- The first condition that is true decides which block is run. -/
theorem leaves_of_true {k : Nat} {g : ChainTest} {s₁ s₂ : Store ω} (h : c.parts.Placed block pos)
    (hk : c.tests[k]? = some g) (hb : c.branches[g.branch]? = some b)
    (hbefore : AllYield host block (c.placed pos) false k s s₁)
    (hyields : g.test.Yields host block (pos + c.parts.start (.test k)) s₁ true s₂)
    (hrun : host.FallsThrough block (pos + c.branchAt g.branch) b.inside s₂ s') :
    c.Leaves host block pos s ((List.range (k + 1)).map .test ++ [.branch g.branch]) s' := by
  obtain ⟨b', hb', hlabel, -⟩ := branch_of_test hk
  obtain rfl : b = b' := Option.some.inj (hb.symm.trans hb')
  have htests := (passes_tests h hbefore).trans (passes_true h hk hb hlabel hyields)
  have hends := (passes_branch h hb hrun).trans (passes_finish h s')
  have hwhole := htests.trans hends
  unfold Leaves
  rw [List.range_succ, List.map_append, List.append_assoc]
  exact hwhole

/-- If no condition is true, the else block is run. -/
theorem leaves_of_false {s₁ : Store ω} (h : c.parts.Placed block pos)
    (htests : AllYield host block (c.placed pos) false c.tests.length s s₁)
    (hrun : host.FallsThrough block (pos + c.elseAt) c.otherwise s₁ s') :
    c.Leaves host block pos s ((List.range c.tests.length).map .test ++ [.otherwise]) s' := by
  have hends := (passes_otherwise h hrun).trans (passes_finish h s')
  have hwhole := (passes_tests h htests).trans hends
  unfold Leaves
  rw [List.append_assoc]
  exact hwhole

/-- If every condition has some truth, there is a first one that is true, or none is. -/
theorem first_true_or_none {start : Store ω}
    (hall : ∀ p ∈ c.placed pos, ∀ s, ∃ b s', p.2.Yields host block p.1 s b s') :
    (∃ s₁, AllYield host block (c.placed pos) false c.tests.length start s₁) ∨
    ∃ k g b s₁ s₂, c.tests[k]? = some g ∧ c.branches[g.branch]? = some b ∧
      AllYield host block (c.placed pos) false k start s₁ ∧
      g.test.Yields host block (pos + c.parts.start (.test k)) s₁ true s₂ := by
  have hlength : (c.placed pos).length = c.tests.length := by simp [placed]
  rcases AllYield.all_or_first hall false start with hnone | hfirst
  · rw [hlength] at hnone
    exact .inl hnone
  · obtain ⟨k, p, s₁, s₂, hk, hbefore, hyields⟩ := hfirst
    obtain ⟨g, hg, rfl⟩ : ∃ g, c.tests[k]? = some g ∧
        (pos + c.parts.start (.test k), g.test) = p := by
      simpa [placed] using hk
    obtain ⟨b, hb, -, -⟩ := branch_of_test hg
    exact .inr ⟨k, g, b, s₁, s₂, hg, hb, hbefore, hyields⟩

end ChainCode

/-! ## Whole chains -/

/-- A chain of conditions runs the block of the first branch with a true condition. The chain is
lowered to rows with the code of its conditions and blocks as parts. Let these rows stand in any
block, as long as no label of the chain stands before them, and let the conditions give truth values
and the blocks fall through. If one of the conditions is true, the run asks the conditions in the
order of the source up to the first true one, and runs the block of its branch. If none is true, it
asks them all and runs the else block. It asks nothing else and runs nothing else, and it goes on
behind the label of the end. If every condition has some truth, one of the two is the case. -/
theorem ifChain_selects_branch {σ : Type} [NameSupply σ] {t : Tree} {id : NodeId} {n : Node}
    {conds : List NodeId} {body : NodeId} {elseIfs : List NodeId} {elseBlock : Option NodeId}
    (hn : t.node? id = some n) (hkind : n.kind = .ifChain conds body elseIfs elseBlock)
    {steps : Nat} {s s' : LowerState σ} {r : Option Instr}
    (hnames : NameSupply.NeverRepeats s.names) (h : Lower.within t (steps + 1) id s = .ok r s') :
    (∃ c : ChainCode, s'.out.toList = s.out.toList ++ c.rows ∧
      c.LoweredFrom t (Lower.within t steps : Lower.Walk σ) (id :: elseIfs) elseBlock) ∧
    ∀ c : ChainCode, s'.out.toList = s.out.toList ++ c.rows →
      ∀ before after : List Instr,
        (∀ l ∈ Instr.labelNames c.rows, ∀ i ∈ before, i.isLabelOf l = false) →
        ∀ (ω : Type) (host : Host ω) (start : Store ω),
        let block := before ++ c.rows ++ after
        let pos := before.length
        (∀ k g b s₁ s₂ final, c.tests[k]? = some g → c.branches[g.branch]? = some b →
          AllYield host block (c.placed pos) false k start s₁ →
          g.test.Yields host block (pos + c.parts.start (.test k)) s₁ true s₂ →
          host.FallsThrough block (pos + c.branchAt g.branch) b.inside s₂ final →
          c.Leaves host block pos start ((List.range (k + 1)).map .test ++ [.branch g.branch])
            final) ∧
        (∀ s₁ final, AllYield host block (c.placed pos) false c.tests.length start s₁ →
          host.FallsThrough block (pos + c.elseAt) c.otherwise s₁ final →
          c.Leaves host block pos start ((List.range c.tests.length).map .test ++ [.otherwise])
            final) ∧
        ((∀ p ∈ c.placed pos, ∀ s, ∃ b s', p.2.Yields host block p.1 s b s') →
          (∃ s₁, AllYield host block (c.placed pos) false c.tests.length start s₁) ∨
          ∃ k g b s₁ s₂, c.tests[k]? = some g ∧ c.branches[g.branch]? = some b ∧
            AllYield host block (c.placed pos) false k start s₁ ∧
            g.test.Yields host block (pos + c.parts.start (.test k)) s₁ true s₂) := by
  refine ⟨Lower.emitted_chain hn hkind h, ?_⟩
  intro c hout before after hbefore ω host start block pos
  have hlabels : (Instr.labelNames c.rows).Nodup :=
    (Lower.careful_within t (steps + 1) id).nodup_labelNames hnames h hout
  have hplaced : c.parts.Placed block pos := ChainCode.placed_parts hlabels hbefore
  refine ⟨?_, ?_, ChainCode.first_true_or_none⟩
  · intro k g b s₁ s₂ final hk hb hfalse htrue hrun
    exact ChainCode.leaves_of_true hplaced hk hb hfalse htrue hrun
  · intro s₁ final hfalse hrun
    exact ChainCode.leaves_of_false hplaced hfalse hrun

/-! ## A chain of two branches -/

/-- A host that runs blocks inside the block too, if these are straight. -/
def Host.nested : Host Unit :=
  { Host.plain with
    perform := fun i s =>
      match i with
      | .block is _ => (Host.plain.execAll is s).map .next
      | i => Host.plain.perform i s }

namespace Lower

/-- The chain `if flag, n < 3 { hit = 1 } else if other { hit = 2 } else { hit = 3 }`. -/
def chainTree : Tree :=
  ⟨#[node (.ident "flag"), node (.ident "n"), number 3, node (.binary .less 1 2),
    node (.ident "hit"), number 1, node (.update 4 5), node (.block [6]),
    node (.ident "other"), number 2, node (.update 4 9), node (.block [10]),
    node (.ifChain [8] 11 [] none), node (.update 4 2), node (.block [13]),
    node (.ifChain [0, 3] 7 [12] (some 14))]⟩
where
  node (kind : NodeKind) : Node := ⟨kind, .none, none, ⟨some .any, none, none, none, none⟩⟩
  number (n : Int64) : Node := ⟨.literal, .none, none, ⟨some .int, some (.int n), none, none, none⟩⟩

/-- The block that moves a number to `hit`. -/
def hitBlock (n : Int64) : List Instr :=
  [.block [.mov (.reference (.name "hit") .none) (.value (.int n) .none) .none] .none]

/-- The code of the chain. -/
def chainCode : ChainCode :=
  ⟨.name "L0", .none,
    [⟨.name "L1", [⟨[], .reference (.name "flag") .none, .none⟩,
      ⟨[.binary .less (.reference (.name "n") .none) (.value (.int 3) .none) .none], top, .none⟩],
      hitBlock 1⟩,
    ⟨.name "L2", [⟨[], .reference (.name "other") .none, .none⟩], hitBlock 2⟩],
    hitBlock 3⟩

/-- A store in which `n` has a value, and `flag` and `other` are false. -/
def chainStore (n : Int64) : Store Unit where
  registers _ := .nil
  stack := []
  vars
    | .name "flag" => some (.bool false)
    | .name "other" => some (.bool false)
    | .name "n" => some (.int n)
    | _ => none
  world := ()

/-- The rows around the chain. -/
def chainBlock : List Instr :=
  [.label (.name "again") .none] ++ chainCode.rows ++ [.jump (.name "again") .none]

theorem chain_flag (n : Int64) : AllYield Host.nested chainBlock (chainCode.placed 1) false 1
    (chainStore n) (chainStore n) :=
  .next (.start _) rfl ⟨chainStore n, .refl _, rfl⟩

theorem chain_less {n : Int64} {b : Bool} (h : decide (n < 3) = b) :
    (⟨[.binary .less (.reference (.name "n") .none) (.value (.int 3) .none) .none], top,
      .none⟩ : Test).Yields Host.nested chainBlock (1 + chainCode.parts.start (.test 1))
      (chainStore n) b (chainStore n) := by
  subst h
  exact ⟨(chainStore n).push (.bool (n < 3)), .next (Nat.le_refl _) (Nat.lt_succ_self _) rfl
    (.refl _), rfl⟩

/-- With 2 for `n` the first two conditions are asked and the first block is run. With 5 for `n` all
three conditions are asked and the else block is run. -/
theorem ifChain_selects_branch_less :
    ∃ s', Lower.node chainTree 15 (.ofNames SequentialNames.start) = .ok none s' ∧
      s'.out.toList = chainCode.rows ∧
      chainCode.Leaves Host.nested chainBlock 1 (chainStore 2) [.test 0, .test 1, .branch 0]
        ((chainStore 2).setVariable (.name "hit") (.int 1)) ∧
      chainCode.Leaves Host.nested chainBlock 1 (chainStore 5)
        [.test 0, .test 1, .test 2, .otherwise]
        ((chainStore 5).setVariable (.name "hit") (.int 3)) := by
  obtain ⟨s', hrun, hout⟩ : ∃ s',
      Lower.node chainTree 15 (.ofNames SequentialNames.start) = .ok none s' ∧
      s'.out.toList = chainCode.rows := ⟨_, rfl, rfl⟩
  have hbefore : ∀ l ∈ Instr.labelNames chainCode.rows, ∀ i ∈ [Instr.label (.name "again") .none],
      i.isLabelOf l = false := by decide
  have hchain := (ifChain_selects_branch rfl rfl (SequentialNames.neverRepeats _) hrun).2 chainCode
    hout [.label (.name "again") .none] [.jump (.name "again") .none] hbefore Unit Host.nested
  refine ⟨s', hrun, hout, ?_, ?_⟩
  · obtain ⟨hbranch, -, -⟩ := hchain (chainStore 2)
    exact hbranch 1 _ _ _ _ _ rfl rfl (chain_flag 2) (chain_less (by decide))
      (.next (Nat.le_refl _) (Nat.lt_succ_self _) rfl (.refl _))
  · obtain ⟨-, helse, -⟩ := hchain (chainStore 5)
    exact helse _ _ (.next (.next (chain_flag 5) rfl (chain_less (by decide))) rfl
      ⟨chainStore 5, .refl _, rfl⟩) (.next (Nat.le_refl _) (Nat.lt_succ_self _) rfl (.refl _))

end Lower

end BytecodeCompiler
