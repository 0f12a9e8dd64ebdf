import BytecodeCompiler.Proofs.Emission.Visits
import BytecodeCompiler.Proofs.Lower.Flat

-- Where lowered code comes from. Every instruction and every operand that lowering makes carries
-- the span of a node of the tree, or points nowhere. So what is true of the spans of a tree is true
-- of all places in its code.

namespace BytecodeCompiler

/-! ## Spans of whole instructions -/

namespace Instr

/-- What the instruction is made of: its operands, or the rows of its block. -/
def parts : Instr → List Instr
  | .compareJump a b _ _ => [a, b]
  | .lambda _ body _ | .block body _ => body
  | i => i.operands

/-- The spans of the instruction and of all that it is made of have the property. -/
inductive Within (P : Span → Prop) : Instr → Prop
  | intro {i : Instr} (span : P i.span) (parts : ∀ part ∈ i.parts, Within P part) : Within P i

theorem exists_of_mem_visitsAll {is : List Instr} {start : Nat} {v : Nat × Instr}
    (h : v ∈ visitsAll start is) : ∃ i ∈ is, ∃ start', v ∈ i.visits start' := by
  induction is generalizing start with
  | nil => cases h
  | cons i is ih =>
    rcases List.mem_append.mp h with h | h
    · exact ⟨i, List.mem_cons_self, start, h⟩
    · obtain ⟨j, hj, start', hv⟩ := ih h
      exact ⟨j, List.mem_cons_of_mem i hj, start', hv⟩

theorem exists_of_mem_visitsReversed {is : List Instr} {start : Nat} {v : Nat × Instr}
    (h : v ∈ visitsReversed start is) : ∃ i ∈ is, ∃ start', v ∈ i.visits start' := by
  induction is generalizing start with
  | nil => cases h
  | cons i is ih =>
    rcases List.mem_append.mp h with h | h
    · obtain ⟨j, hj, start', hv⟩ := ih h
      exact ⟨j, List.mem_cons_of_mem i hj, start', hv⟩
    · exact ⟨i, List.mem_cons_self, _, h⟩

/-- What is visited is the instruction or belongs to one of its parts. -/
theorem eq_or_exists_of_mem_visits {i : Instr} {start : Nat} {v : Nat × Instr}
    (h : v ∈ i.visits start) : v.2 = i ∨ ∃ part ∈ i.parts, ∃ start', v ∈ part.visits start' := by
  cases i with
  | iterable ty is s =>
    rcases List.mem_cons.mp h with rfl | h
    · exact Or.inl rfl
    · exact Or.inr (exists_of_mem_visitsReversed h)
  | lambda f is s | block is s =>
    rcases List.mem_cons.mp h with rfl | h
    · exact Or.inl rfl
    · exact Or.inr (exists_of_mem_visitsAll h)
  | _ =>
    simp only [visits, List.mem_cons, List.mem_append, List.not_mem_nil, or_false] at h
    simp only [parts, operands, List.mem_cons, List.not_mem_nil, or_false]
    grind

theorem Within.visits {P : Span → Prop} {i : Instr} (h : i.Within P) :
    ∀ start, ∀ v ∈ i.visits start, P v.2.span := by
  induction h with
  | intro hspan _ ih =>
    intro start v hv
    rcases eq_or_exists_of_mem_visits hv with heq | ⟨part, hpart, start', hv⟩
    · rw [heq]
      exact hspan
    · exact ih part hpart start' v hv

end Instr

namespace Lower

open Instr (Within)

variable {σ : Type} {P : Span → Prop}

theorem within_value {span : Span} (h : P span) (v : Value) : (Instr.value v span).Within P :=
  .intro h (List.forall_mem_nil _)

/-! ## Steps -/

/-- Only instructions with such spans are appended, and only operands with such spans are given. -/
def placed (P : Span → Prop) (hnone : P .none) : Pairing σ σ :=
  .rows (fun is => ∀ i ∈ is, i.Within P) (Within P) P (List.forall_mem_nil _)
    (fun h h' => List.forall_mem_append.mpr ⟨h, h'⟩)
    (fun hi hspan ho => List.forall_mem_singleton.mpr (within_of_isWork hi hspan ho)) hnone
    (fun v _ hspan => within_value hspan v)
    (fun _ _ hspan h => .intro hspan (List.forall_mem_singleton.mpr h))
    fun _ _ hspan h => .intro hspan h
where
  within_of_isWork {i : Instr} (h : i.isWork = true) (hspan : P i.span)
      (ho : ∀ o ∈ i.operands, o.Within P) : i.Within P := by
    cases i with
    | compareJump | lambda | block => cases h
    | _ => exact .intro hspan ho

variable {hnone : P .none}

theorem placed_push (i : Instr) (hspan : P i.span) (hparts : ∀ part ∈ i.parts, part.Within P)
    {m : Lower σ Unit} : (placed P hnone).step (Same fun _ => True) (push i) m :=
  emits_push ⟨List.forall_mem_singleton.mpr (.intro hspan hparts), _, rfl, trivial⟩

def placedControl : (placed (σ := σ) P hnone).Control where
  label _ _ := True
  row is _ := ∀ i ∈ is, i.Within P
  step_inBlock h := (emits_inBlock (h.weaken fun _ _ hmade => hmade.1)).weaken
    fun _ is ⟨hmade, his⟩ => ⟨by simp [hmade], is, his⟩
  push_block hspan h := placed_push (.block _ _) hspan h
  push_label hspan _ := placed_push (.label _ _) hspan (List.forall_mem_nil _)
  push_jump hspan _ := placed_push (.jump _ _) hspan (List.forall_mem_nil _)
  push_compareJump hspan ha hb _ :=
    placed_push (.compareJump _ _ _ _) hspan
      (List.forall_mem_cons.mpr ⟨ha, List.forall_mem_singleton.mpr hb⟩)

/-! ## Whole trees -/

variable [NameSupply σ] {t : Tree}

theorem placedControl_complete (hnodes : ∀ id n, t.node? id = some n → P n.span) :
    (placedControl : (placed (σ := σ) P hnone).Control).Complete t where
  fresh := emits_fresh.silent (List.forall_mem_nil _) fun l => ⟨l, trivial⟩
  takesBodies _ _ hspan h := placed_push (.lambda _ _ _) hspan h
  note id l l' _ := (emits_noteLoop id l).silent (List.forall_mem_nil _) fun _ => ⟨_, rfl, trivial⟩
  leave {id n} hn := by
    rintro s a s' h
    obtain ⟨_, finish, -, -, rfl⟩ := breakLoop_eq_ok h
    exact ⟨[.jump finish n.span], Array.toList_push,
      List.forall_mem_singleton.mpr (.intro (hnodes id n hn) (List.forall_mem_nil _)), _, rfl,
      trivial⟩

/-- What is appended for a file carries the spans of its tree, or points nowhere. -/
theorem emits_root_within (hnone : P .none) (hnodes : ∀ id n, t.node? id = some n → P n.span)
    (id : NodeId) : Emits (root t id : Lower σ Unit) fun made _ => ∀ i ∈ made, i.Within P := by
  have hcovers : (placed (σ := σ) P hnone).Covers t := ⟨fun _ => trivial, fun hn => hnodes _ _ hn⟩
  exact ((placedControl_complete hnodes).step_root hcovers id).weaken fun _ _ hmade => hmade.1

end Lower

end BytecodeCompiler
