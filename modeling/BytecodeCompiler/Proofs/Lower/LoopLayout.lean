import BytecodeCompiler.Proofs.Instr.Execution
import BytecodeCompiler.Proofs.Lower.Flat
import BytecodeCompiler.Proofs.Lower.Labels
import BytecodeCompiler.Proofs.Lower.LiveScratch

-- Where the parts of a loop stand in its block. A loop over an iterable is one block: the code of
-- its expression, the moves into its two registers, its declarations, the label of the top, what
-- every round does first, the code of its body, the jump back, and the label of the end. The code
-- of the expression, the declarations and the body is whatever these are lowered to.

namespace BytecodeCompiler

/-! ## Labels in a block -/

namespace Instr

theorem mem_labelNames_of_isLabelOf {is : List Instr} {i : Instr} {l : Ident} (hi : i ∈ is)
    (h : i.isLabelOf l = true) : l ∈ labelNames is := by
  obtain ⟨before, after, rfl⟩ := List.append_of_mem hi
  cases i with
  | label name span =>
    obtain rfl : name = l := by simpa [isLabelOf] using h
    rw [labelNames_append, ← List.singleton_append, labelNames_append]
    exact List.mem_append_right _ (List.mem_append_left _ List.mem_cons_self)
  | _ => cases h

/-- If no label stands twice in a block, a jump to one leads to where it stands. -/
theorem findIdx?_isLabelOf {rows : List Instr} {pos : Nat} {l : Ident} {span : Span}
    (h : Stands rows pos [.label l span]) (hnodup : (labelNames rows).Nodup) :
    rows.findIdx? (·.isLabelOf l) = some pos := by
  obtain ⟨before, after, rfl, rfl⟩ := h
  rw [List.append_assoc, labelNames_append, labelNames_append] at hnodup
  have hearlier : before.findIdx? (·.isLabelOf l) = none := by
    rw [List.findIdx?_eq_none_iff]
    intro i hi
    rw [Bool.eq_false_iff]
    intro hlabel
    exact List.disjoint_of_nodup_append hnodup (mem_labelNames_of_isLabelOf hi hlabel)
      (List.mem_append_left _ List.mem_cons_self)
  rw [List.append_assoc, List.findIdx?_append, hearlier]
  simp [List.findIdx?_cons, isLabelOf]

end Instr

namespace Lower

variable {σ α : Type}

/-- The instructions are what the step appends in some state in which it gives the result. -/
def Appends (m : Lower σ α) (a : α) (made : List Instr) : Prop :=
  ∃ s s', m s = .ok a s' ∧ s'.out.toList = s.out.toList ++ made

/-- A step that keeps the ledger appends something. -/
theorem Neutral.emits [NameSupply σ] {m : Lower σ α} {good : α → Prop} (h : Neutral m good) :
    Emits m fun made a => Appends m a made := by
  intro s a s' hrun
  obtain ⟨-, made, hout, -⟩ := h [] [] s a s' hrun
  exact ⟨made, hout, s, s', hrun, hout⟩

/-! ## Loops -/

section Loops

variable [NameSupply σ] {t : Tree} {walk : Walk σ}

/-- The parts of a loop stand in its block one after the other. -/
theorem emits_loop (hwalk : Careful walk) {id : NodeId} {n : Node} {start : Lower σ Unit}
    {sets conds : List NodeId} {block : NodeId} {each : LoopLabels → Lower σ Unit}
    {first : List Instr → Prop} {every : LoopLabels → List Instr → Prop}
    {tested : LoopLabels → List Instr → Prop} (hstart : Emits start fun made _ => first made)
    (heach : ∀ labels, Emits (each labels) fun made _ => every labels made)
    (hconds : ∀ labels : LoopLabels, Emits (guards t walk n.span false labels.finish conds)
      fun made _ => tested labels made) :
    Emits (loop t walk id n start sets each conds block) fun made _ =>
      ∃ labels before declared stepped tests inside,
        made = [loopBlock labels n.span (before ++ declared) (stepped ++ (tests ++ inside))] ∧
        first before ∧ Appends (all walk sets) () declared ∧ every labels stepped ∧
        tested labels tests ∧ ∃ r, Appends (walk block) r inside := by
  refine emits_fresh.bind ?_
  rintro top _ rfl
  refine emits_fresh.bind ?_
  rintro finish _ rfl
  have hnote : Emits (noteLoop id finish : Lower σ Unit) fun made _ => made = [] := by
    rintro s _ s' h
    cases h
    exact ⟨[], (List.append_nil _).symm, rfl⟩
  refine hnote.bind ?_
  rintro _ _ rfl
  refine Emits.bind (emits_inBlock (?_ : Emits _ fun rows _ =>
    ∃ before declared stepped tests inside,
      Instr.block rows n.span = loopBlock ⟨top, finish⟩ n.span (before ++ declared)
        (stepped ++ (tests ++ inside)) ∧
      first before ∧ Appends (all walk sets) () declared ∧ every ⟨top, finish⟩ stepped ∧
      tested ⟨top, finish⟩ tests ∧ ∃ r, Appends (walk block) r inside)) ?_
  · have hpush : ∀ i, Emits (push i : Lower σ Unit) fun made _ => made = [i] :=
      fun _ => emits_push rfl
    refine hstart.bind fun _ before hbefore => ?_
    refine (neutral_all hwalk sets).emits.bind fun _ declared hdeclared => ?_
    refine (hpush _).bind ?_
    rintro _ _ rfl
    refine (heach ⟨top, finish⟩).bind fun _ stepped hstepped => ?_
    refine (hconds ⟨top, finish⟩).bind fun _ tests htests => ?_
    refine (hwalk block).emits.bind fun r inside hinside => ?_
    refine (hpush _).bind ?_
    rintro _ _ rfl
    refine emits_push ⟨before, declared, stepped, tests, inside, ?_, hbefore, hdeclared, hstepped,
      htests, r, hinside⟩
    simp [loopBlock]
  · rintro rows _ ⟨rfl, before, declared, stepped, tests, inside, hrows, hparts⟩
    exact emits_push ⟨⟨top, finish⟩, before, declared, stepped, tests, inside, by rw [← hrows]; rfl,
      hparts⟩

end Loops

end Lower

/-! ## Loops over iterables -/

/-- A variable that a loop binds in every round, and where its declaration stands. -/
structure LoopTarget where
  name : Ident
  span : Span

/-- What a move into the variable names. -/
def LoopTarget.instr (target : LoopTarget) : Instr := .reference target.name target.span

/-- The declaration in the head of a loop makes the variable. -/
def Tree.Binds (t : Tree) (id : NodeId) (target : LoopTarget) : Prop :=
  ∃ n isPub isConst name expr element, t.node? id = some n ∧
    n.kind = .set isPub isConst name expr element ∧ target = ⟨n.machineIdent name, n.span⟩

/-- The code of a loop over an iterable, by its parts. -/
structure ForInCode where
  labels : Lower.LoopLabels
  span : Span
  /-- The code of the expression, and the operand that it leaves. -/
  first : List Instr
  operand : Instr
  /-- The code of the declarations. -/
  declared : List Instr
  key : Option LoopTarget
  value : Option LoopTarget
  /-- The code of the body. -/
  inside : List Instr

namespace ForInCode

variable (c : ForInCode)

/-- The moves into the registers of the loop. -/
def moves : List Instr :=
  [.mov (.register .ra c.span) c.operand c.span,
    .mov (.register .ri c.span) (.value (.int 0) c.span) c.span]

/-- What every round does before its body. -/
def each : List Instr :=
  Lower.eachCode c.span (c.key.map LoopTarget.instr) (c.value.map LoopTarget.instr) c.labels.finish

/-- The rows of the block. -/
def rows : List Instr :=
  c.first ++ c.moves ++ c.declared ++ [.label c.labels.top c.span] ++ c.each ++ c.inside ++
    [.jump c.labels.top c.span, .label c.labels.finish c.span]

/-- Where the declarations start. -/
def declaredAt : Nat := c.first.length + 2

/-- Where the label of the top stands. -/
def topAt : Nat := c.declaredAt + c.declared.length

/-- Where the body starts. -/
def bodyAt : Nat := c.topAt + 1 + c.each.length

/-- Where the body ends, and the jump back stands. -/
def bodyEnd : Nat := c.bodyAt + c.inside.length

/-- Where the label of the end stands. -/
def endAt : Nat := c.bodyEnd + 1

/-- The parts of the code are what the parts of the loop are lowered to. -/
structure LoweredFrom {σ : Type} (t : Tree) (walk : Lower.Walk σ) (key value : Option NodeId)
    (expr block : NodeId) : Prop where
  first : Lower.Appends (Lower.operand t walk expr) c.operand c.first
  declared : Lower.Appends (Lower.all walk (key.toList ++ value.toList)) () c.declared
  inside : ∃ r, Lower.Appends (walk block) r c.inside
  key : Option.Rel t.Binds key c.key
  value : Option.Rel t.Binds value c.value

end ForInCode

namespace Lower

variable {σ : Type} {t : Tree}

theorem emits_loopTarget (id : NodeId) : Emits (loopTarget t id : Lower σ Instr) fun made target =>
    made = [] ∧ ∃ bound, t.Binds id bound ∧ target = bound.instr := by
  refine (emits_nodeAt t id).bind ?_
  rintro n _ ⟨rfl, hn⟩
  cases hkind : n.kind with
  | set isPub isConst name expr element =>
    refine (emits_identOf n name).bind ?_
    rintro _ _ ⟨rfl, rfl⟩
    exact emits_pure ⟨rfl, ⟨n.machineIdent name, n.span⟩,
      ⟨n, isPub, isConst, name, expr, element, hn, hkind, rfl⟩, rfl⟩
  | _ => exact emits_throw _

theorem emits_loopTarget? (id : Option NodeId) :
    Emits (loopTarget? t id : Lower σ (Option Instr)) fun made found =>
      made = [] ∧ ∃ bound, Option.Rel t.Binds id bound ∧ found = bound.map LoopTarget.instr := by
  cases id with
  | none => exact emits_pure ⟨rfl, none, .none, rfl⟩
  | some id =>
    refine (emits_loopTarget id).bind ?_
    rintro _ _ ⟨rfl, bound, hbound, rfl⟩
    exact emits_pure ⟨rfl, some bound, .some hbound, rfl⟩

theorem emits_eachElement (span : Span) (key value : Option Instr) (labels : LoopLabels) :
    Emits (eachElement span key value labels : Lower σ Unit) fun made _ =>
      made = eachCode span key value labels.finish := by
  intro s _ s' h
  obtain ⟨-, made, hout, -, hmade⟩ :=
    proceeds_eachElement span key value labels s _ s' (List.Subset.refl _) h
  exact ⟨made, hout, hmade⟩

/-- A loop over an iterable is lowered to one block with these parts. -/
theorem emits_forIn [NameSupply σ] {walk : Walk σ} (hwalk : Careful walk) (id : NodeId) (n : Node)
    (key value : Option NodeId) (expr block : NodeId) :
    Emits (forIn t walk id n key value expr block) fun made _ =>
      ∃ c : ForInCode, made = [.block c.rows c.span] ∧
        c.LoweredFrom t walk key value expr block := by
  refine (emits_loopTarget? key).bind ?_
  rintro _ _ ⟨rfl, key', hkey, rfl⟩
  refine (emits_loopTarget? value).bind ?_
  rintro _ _ ⟨rfl, value', hvalue, rfl⟩
  have hstart : Emits (startElements t walk n expr) fun made _ =>
      ∃ first v, Appends (operand t walk expr) v first ∧
        made = first ++ [.mov (.register .ra n.span) v n.span,
          .mov (.register .ri n.span) (.value (.int 0) n.span) n.span] := by
    refine (neutral_operand hwalk expr).emits.bind fun v first hfirst => ?_
    have hpush : Emits (push (.mov (.register .ra n.span) v n.span) : Lower σ Unit)
      fun made _ => made = [.mov (.register .ra n.span) v n.span] := emits_push rfl
    refine hpush.bind ?_
    rintro _ _ rfl
    exact emits_push ⟨first, v, hfirst, by simp⟩
  have hnone : ∀ labels : LoopLabels, Emits (guards t walk n.span false labels.finish [])
      fun made _ => made = [] := fun _ => emits_pure rfl
  refine (emits_loop hwalk hstart (emits_eachElement n.span _ _) hnone).weaken ?_
  rintro _ _ ⟨labels, _, declared, _, _, inside, rfl, ⟨first, v, hfirst, rfl⟩, hdeclared, rfl, rfl,
    hinside⟩
  refine ⟨⟨labels, n.span, first, v, declared, key', value', inside⟩, ?_, hfirst, hdeclared,
    hinside, hkey, hvalue⟩
  simp [loopBlock, ForInCode.rows, ForInCode.moves, ForInCode.each]

theorem emitted_forIn [NameSupply σ] {id : NodeId} {n : Node} {key value : Option NodeId}
    {expr block : NodeId} (hn : t.node? id = some n)
    (hkind : n.kind = .forIn key value expr block) {steps : Nat} {s s' : LowerState σ}
    {r : Option Instr} (h : within t (steps + 1) id s = .ok r s') :
    ∃ c : ForInCode, s'.out.toList = s.out.toList ++ [.block c.rows c.span] ∧
      c.LoweredFrom t (within t steps : Walk σ) key value expr block := by
  rw [within_forIn hn hkind] at h
  obtain ⟨_, s₁, hloop, hnone⟩ := bind_eq_ok h
  cases hnone
  obtain ⟨_, hout, c, rfl, hc⟩ :=
    emits_forIn (careful_within t steps) id n key value expr block s _ s' hloop
  exact ⟨c, hout, hc⟩

end Lower

end BytecodeCompiler
