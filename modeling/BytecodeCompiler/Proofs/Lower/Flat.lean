import BytecodeCompiler.Proofs.Lower.Expressions
import BytecodeCompiler.Proofs.Lower.PairedControl
import BytecodeCompiler.Proofs.Lower.Progress

-- Lowered code is flat. What stands in a block is an instruction, a label, a block or a function,
-- and never an operand. What stands in an operand is an operand, and never an instruction. So
-- whatever has to be computed is computed by an instruction of its own, before the instruction that
-- takes it.

namespace BytecodeCompiler

namespace Instr

mutual

/-- Whether the instruction is an operand all through: a value, or one made from operands. -/
def isObject : Instr → Bool
  | .value .. => true
  | .wrapped _ inner _ => inner.isObject
  | .iterable _ members _ => areObjects members
  | _ => false

def areObjects : List Instr → Bool
  | [] => true
  | i :: is => i.isObject && areObjects is

end

mutual

/-- Whether the instruction may stand in a block: it is no operand, all its operands are operands
all through, a call takes an array of anything, and the same holds for what its own block holds. -/
def isStatement : Instr → Bool
  | .label .. | .jump .. => true
  | .compareJump a b _ _ => a.isObject && b.isObject
  | .block body _ | .lambda _ body _ => areStatements body
  | i => i.isWork && areObjects i.operands

def areStatements : List Instr → Bool
  | [] => true
  | i :: is => i.isStatement && areStatements is

end

theorem areObjects_iff {is : List Instr} : areObjects is = true ↔ ∀ i ∈ is, i.isObject = true := by
  induction is with
  | nil => simp [areObjects]
  | cons i is ih => simp [areObjects, ih]

theorem areStatements_append {is js : List Instr} (h : areStatements is = true)
    (h' : areStatements js = true) : areStatements (is ++ js) = true := by
  induction is with
  | nil => exact h'
  | cons i is ih =>
    simp only [areStatements, Bool.and_eq_true] at h
    simp [areStatements, h.1, ih h.2]

theorem isStatement_of_isWork {i : Instr} (h : i.isWork = true)
    (ho : ∀ o ∈ i.operands, o.isObject = true) : i.isStatement = true := by
  rw [← areObjects_iff] at ho
  cases i with
  | value | wrapped | iterable | compareJump | jump | label | lambda | block => cases h
  | _ => simp [isStatement, h, ho]

end Instr

namespace Lower

variable {σ : Type}

/-- A lowering next to itself, to keep a property of the rows that it appends. -/
def Pairing.rows (row : List Instr → Prop) (accepts : Instr → Prop) (spans : Span → Prop)
    (hnil : row []) (happend : ∀ {is js}, row is → row js → row (is ++ js))
    (hwork : ∀ {i : Instr}, i.isWork = true → spans i.span → (∀ o ∈ i.operands, accepts o) →
      row [i])
    (hnone : spans .none) (hvalue : ∀ v {span}, spans span → accepts (.value v span))
    (hwrapped : ∀ {inner} ty {span}, spans span → accepts inner →
      accepts (.wrapped ty inner span))
    (hiterable : ∀ {members} ty {span}, spans span → (∀ m ∈ members, accepts m) →
      accepts (.iterable ty members span)) : Pairing σ σ where
  step rel m _ := Emits m fun made a => row made ∧ ∃ b, rel a b
  accepts := accepts
  spans := spans
  faults _ := True
  step_pure h := emits_pure ⟨hnil, _, h⟩
  step_throw {_ _ _ fault} _ := emits_throw fault
  step_bind hm hf := hm.bind fun a made ⟨hmade, b, hab⟩ =>
    (hf a b hab).weaken fun made' c ⟨hmade', hc⟩ => ⟨happend hmade hmade', hc⟩
  step_push hi hspan ho := emits_push ⟨hwork hi hspan ho, _, rfl, trivial⟩
  step_isProcessed id flag := by
    rintro s a s' h
    cases h
    exact ⟨[], (List.append_nil _).symm, hnil, _, rfl, trivial⟩
  step_markProcessed id := by
    rintro s a s' h
    cases h
    exact ⟨[], (List.append_nil _).symm, hnil, _, rfl, trivial⟩
  spans_none := hnone
  accepts_value := hvalue
  accepts_wrapped := hwrapped
  accepts_iterable := hiterable

section Control

/-- A step that appends nothing keeps every property that the empty row has. -/
theorem Emits.silent {α β : Type} {row : List Instr → Prop} {rel : α → β → Prop} {m : Lower σ α}
    (h : Emits m fun made _ => made = []) (hnil : row []) (hrel : ∀ a, ∃ b, rel a b) :
    Emits m fun made a => row made ∧ ∃ b, rel a b :=
  h.weaken fun _ a hmade => ⟨hmade ▸ hnil, hrel a⟩

theorem emits_noteLoop (id : NodeId) (finish : Ident) :
    Emits (noteLoop id finish : Lower σ Unit) fun made _ => made = [] := by
  rintro s a s' h
  cases h
  exact ⟨[], (List.append_nil _).symm, rfl⟩

/-- Lowering into a new block gives what is appended there, and appends nothing to the block at
hand. -/
theorem emits_inBlock {m : Lower σ Unit} {good : List Instr → Prop}
    (h : Emits m fun made _ => good made) :
    Emits (inBlock m) fun made is => made = [] ∧ good is := by
  rintro ⟨names, loopEnds, processed, out⟩ is s' hrun
  simp only [inBlock] at hrun
  split at hrun
  · rename_i a s hinside
    cases hrun
    obtain ⟨made, hout, hgood⟩ := h _ _ _ hinside
    rw [List.nil_append] at hout
    rw [hout]
    exact ⟨[], (List.append_nil _).symm, rfl, hgood⟩
  · cases hrun

/-- A break that is lowered appends one jump, to where the innermost loop around it ends. -/
theorem breakLoop_eq_ok {t : Tree} {id : NodeId} {n : Node} {s s' : LowerState σ}
    (h : breakLoop t id n s = .ok () s') :
    ∃ loop finish, t.enclosingLoop id = .ok (some loop) ∧
      s.loopEnds.lookup loop = some finish ∧
      s' = ⟨s.names, s.loopEnds, s.processed, s.out.push (.jump finish n.span)⟩ := by
  unfold breakLoop at h
  cases hloop : t.enclosingLoop id with
  | error fault => rw [hloop] at h; cases h
  | ok found =>
    cases found with
    | none => rw [hloop] at h; cases h
    | some loop =>
      rw [hloop] at h
      obtain ⟨_, _, hget, hjump⟩ := bind_eq_ok h
      cases hget
      cases hfinish : s.loopEnds.lookup loop with
      | none => rw [hfinish] at hjump; cases hjump
      | some finish =>
        rw [hfinish] at hjump
        cases hjump
        exact ⟨loop, finish, rfl, hfinish, rfl⟩

/-- Only statements are appended, and only operands are given. -/
def flat : Pairing σ σ :=
  .rows (fun is => Instr.areStatements is = true) (fun i => i.isObject = true) (fun _ => True) rfl
    Instr.areStatements_append
    (fun hi _ ho => by simp [Instr.areStatements, Instr.isStatement_of_isWork hi ho]) trivial
    (fun _ _ _ => rfl) (fun _ _ _ h => h) fun _ _ _ h => Instr.areObjects_iff.mpr h

theorem flat_covers (t : Tree) : (flat : Pairing σ σ).Covers t where
  faults _ := trivial
  spans _ := trivial

/-- A block or a function may stand in a block if only statements stand in it. -/
def flatControl : (flat : Pairing σ σ).Control where
  label _ _ := True
  row is _ := Instr.areStatements is = true
  step_inBlock h := (emits_inBlock (h.weaken fun _ _ hmade => hmade.1)).weaken
    fun _ is ⟨hmade, his⟩ => ⟨by rw [hmade]; rfl, is, his⟩
  push_block _ h :=
    emits_push ⟨by simpa [Instr.areStatements, Instr.isStatement] using h, _, rfl, trivial⟩
  push_label _ _ := emits_push ⟨rfl, _, rfl, trivial⟩
  push_jump _ _ := emits_push ⟨rfl, _, rfl, trivial⟩
  push_compareJump _ ha hb _ :=
    emits_push ⟨by simpa [Instr.areStatements, Instr.isStatement] using ⟨ha, hb⟩, _, rfl, trivial⟩

/-! ## Whole trees -/

variable [NameSupply σ]

theorem emits_fresh : Emits (fresh : Lower σ Ident) fun made _ => made = [] := by
  rintro ⟨names, loopEnds, processed, out⟩ l s' h
  simp only [fresh] at h
  split at h
  · cases h
    exact ⟨[], (List.append_nil _).symm, rfl⟩
  · cases h

theorem flatControl_complete (t : Tree) :
    (flatControl : (flat : Pairing σ σ).Control).Complete t where
  fresh := emits_fresh.silent rfl fun l => ⟨l, trivial⟩
  takesBodies {is _} _ _ _ h := by
    have his : Instr.areStatements is = true := h
    exact emits_push ⟨by simpa [Instr.areStatements, Instr.isStatement] using his, _, rfl, trivial⟩
  note id l l' _ := (emits_noteLoop id l).silent rfl fun _ => ⟨_, rfl, trivial⟩
  leave {id n} _ := by
    rintro s a s' h
    obtain ⟨_, finish, -, -, rfl⟩ := breakLoop_eq_ok h
    exact ⟨[.jump finish n.span], Array.toList_push, rfl, _, rfl, trivial⟩

/-- Lowering gives flat code: a node, a node that must give an operand, and a file append statements
only, and the operand that is given is an operand all through. -/
theorem statements_of_lowered (t : Tree) (id : NodeId) (s s' : LowerState σ) :
    (∀ r, node t id s = .ok r s' → ∃ made, s'.out.toList = s.out.toList ++ made ∧
      Instr.areStatements made = true ∧ ∀ i ∈ r, i.isObject = true) ∧
    (∀ r, value t id s = .ok r s' → ∃ made, s'.out.toList = s.out.toList ++ made ∧
      Instr.areStatements made = true ∧ r.isObject = true) ∧
    (root t id s = .ok () s' → ∃ made, s'.out.toList = s.out.toList ++ made ∧
      Instr.areStatements made = true) := by
  have hflat := flatControl_complete (σ := σ) t
  have hnode := hflat.visit_within (flat_covers t) (enough t) id
  have hvalue := hflat.value_within (flat_covers t) (enough t) id
  refine ⟨fun r h => ?_, fun r h => ?_, fun h => ?_⟩
  · obtain ⟨made, hout, hmade, -, -, hr⟩ := hnode s r s' h
    exact ⟨made, hout, hmade, hr⟩
  · obtain ⟨made, hout, hmade, -, -, hr⟩ := hvalue s r s' h
    exact ⟨made, hout, hmade, hr⟩
  · obtain ⟨made, hout, hmade, -⟩ := hflat.step_root (flat_covers t) id s () s' h
    exact ⟨made, hout, hmade⟩

end Control

/-- The loop that searches is lowered to statements. -/
theorem statements_of_lowered_searching :
    ∃ s', root searchingTree 17 (.ofNames SequentialNames.start) = .ok () s' ∧
      Instr.areStatements s'.out.toList = true := by
  have hroot : ∃ s', root searchingTree 17 (.ofNames SequentialNames.start) = .ok () s' := ⟨_, rfl⟩
  obtain ⟨s', hs'⟩ := hroot
  obtain ⟨made, hout, hmade⟩ := (statements_of_lowered _ _ _ _).2.2 hs'
  refine ⟨s', hs', ?_⟩
  rw [hout]
  exact hmade

end Lower

end BytecodeCompiler
