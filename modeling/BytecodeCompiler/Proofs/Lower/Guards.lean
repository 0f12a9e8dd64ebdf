import BytecodeCompiler.Proofs.Instr.Parts
import BytecodeCompiler.Proofs.Lower.LoopLayout

-- Conditions and their guards. A condition is lowered to some code and an operand. Its guard
-- compares the operand with a truth value, and jumps to a label if they are equal. So a row of
-- guards asks one condition after the other, up to the first one that has this truth. Chains ask
-- for the first true one, and loops for the first false one.

namespace BytecodeCompiler

/-! ## Conditions -/

/-- The code of a condition: the rows, the operand that they leave, and the place it came from. -/
structure Test where
  code : List Instr
  operand : Instr
  span : Span

namespace Test

/-- The code of a condition with its guard, which jumps if the condition has the given truth. -/
def guarded (test : Test) (truth : Bool) (span : Span) (label : Ident) : List Instr :=
  test.code ++ [.compareJump test.operand (.value (.bool truth) span) label test.span]

/-- The code is what the condition is lowered to. -/
structure LoweredFrom {σ : Type} (t : Tree) (walk : Lower.Walk σ) (cond : NodeId) (test : Test) :
    Prop where
  code : Lower.Appends (Lower.operand t walk cond) test.operand test.code
  span : (t.node? cond).map Node.span = some test.span

/-- The code of the condition is run, and reading its operand gives a truth value. -/
def Yields {ω : Type} (test : Test) (host : Host ω) (block : List Instr) (pos : Nat)
    (s : Store ω) (b : Bool) (s' : Store ω) : Prop :=
  ∃ s₁, host.FallsThrough block pos test.code s s₁ ∧
    host.read test.operand s₁ = some (.bool b, s')

variable {ω : Type} {test : Test} {host : Host ω} {block : List Instr} {pos : Nat}
  {truth : Bool} {span : Span} {label : Ident} {s s' : Store ω}

theorem length_guarded (test : Test) (truth : Bool) (span : Span) (label : Ident) :
    (test.guarded truth span label).length = test.code.length + 1 := by
  simp [guarded]

/-- The guard jumps if the operand has the truth that it asks for. -/
theorem exec_guard {b : Bool} {s₁ : Store ω} (h : host.read test.operand s₁ = some (.bool b, s')) :
    host.exec (.compareJump test.operand (.value (.bool truth) span) label test.span) s₁ =
      some (if b = truth then .jump label s' else .next s') := by
  have hconst : host.read (.value (.bool truth) span) s' = some (.bool truth, s') :=
    host.read_value rfl span s'
  cases b <;> cases truth <;> simp [Host.exec, h, hconst, Value.agrees]

/-- A condition without the truth that its guard asks for leads to what comes next. -/
theorem Yields.skips (h : test.Yields host block pos s (!truth) s')
    (hstands : Stands block pos (test.guarded truth span label)) :
    host.FallsThrough block pos (test.guarded truth span label) s s' := by
  obtain ⟨s₁, hcode, hread⟩ := h
  have hstep : host.step block ⟨pos + test.code.length, s₁⟩ =
      some ⟨pos + test.code.length + 1, s'⟩ := by
    apply Host.step_next hstands.right.row
    rw [exec_guard hread]
    cases truth <;> rfl
  unfold Host.FallsThrough
  rw [length_guarded]
  apply (hcode.widen (Nat.le_refl _) (by omega)).trans
  exact .next (by simp) (by simp) hstep (.refl _)

/-- A condition with the truth that its guard asks for leads to the label. -/
theorem Yields.jumps {there : Nat} (h : test.Yields host block pos s truth s')
    (hstands : Stands block pos (test.guarded truth span label))
    (hlabel : block.findIdx? (·.isLabelOf label) = some there) :
    host.RunsIn block pos (pos + (test.guarded truth span label).length) ⟨pos, s⟩ ⟨there, s'⟩ := by
  obtain ⟨s₁, hcode, hread⟩ := h
  have hstep : host.step block ⟨pos + test.code.length, s₁⟩ = some ⟨there, s'⟩ := by
    apply Host.step_jump hstands.right.row _ hlabel
    rw [exec_guard hread, if_pos rfl]
  rw [length_guarded]
  apply (hcode.widen (Nat.le_refl _) (by omega)).trans
  exact .next (by simp) (by simp) hstep (.refl _)

end Test

namespace Lower

variable {σ : Type} {t : Tree} {walk : Walk σ}

theorem emits_row (i : Instr) : Emits (push i : Lower σ Unit) fun made _ => made = [i] :=
  emits_push rfl

/-- A row of guards is lowered to the code of its conditions, each with its guard. -/
theorem emits_guards [NameSupply σ] (hwalk : Careful walk) (span : Span) (truth : Bool)
    (label : Ident) (conds : List NodeId) :
    Emits (guards t walk span truth label conds) fun made _ =>
      ∃ tests : List Test, made = tests.flatMap (·.guarded truth span label) ∧
        List.Forall₂ (Test.LoweredFrom t walk) conds tests := by
  induction conds with
  | nil => exact emits_pure ⟨[], rfl, .nil⟩
  | cons cond conds ih =>
    apply (neutral_operand hwalk cond).emits.bind
    intro v code hcode
    apply (emits_nodeAt t cond).bind
    rintro n _ ⟨rfl, hn⟩
    apply (emits_row _).bind
    rintro _ _ rfl
    apply ih.weaken
    rintro _ _ ⟨tests, rfl, htests⟩
    refine ⟨⟨code, v, n.span⟩ :: tests, ?_, .cons ⟨hcode, by simp [hn]⟩ htests⟩
    simp [Test.guarded]

end Lower

/-! ## Code in its place -/

namespace Parts

variable {ν : Type}

/-- The code stands in a block from a position on. Each part has a name of its own, and its labels
are found where they stand: no label stands twice in the code, and none stands before it. -/
structure Placed (ps : Parts ν) (block : List Instr) (pos : Nat) : Prop where
  names : ps.names.Nodup
  labels : (Instr.labelNames ps.rows).Nodup
  stands : Stands block pos ps.rows
  first : ∀ l ∈ Instr.labelNames ps.rows, ∀ i ∈ block.take pos, i.isLabelOf l = false

namespace Placed

variable {ps : Parts ν} {block : List Instr} {pos i : Nat}

/-- A jump to the label of a part leads to the part. -/
theorem findIdx? (h : ps.Placed block pos) {name : ν} {l : Ident} {span : Span}
    {rest : List Instr} (hi : ps[i]? = some ⟨name, .label l span :: rest⟩) :
    block.findIdx? (·.isLabelOf l) = some (pos + ps.offset i) := by
  have hinside : Stands ps.rows (ps.offset i) [.label l span] := by
    have hpart : Stands ps.rows (0 + ps.offset i) (.label l span :: rest) :=
      stands_part ⟨[], [], rfl, by simp⟩ hi
    rw [Nat.zero_add, ← List.singleton_append] at hpart
    exact hpart.left
  have hcode := Instr.findIdx?_isLabelOf hinside h.labels
  have hmem : l ∈ Instr.labelNames ps.rows := by
    obtain ⟨before, after, -, hrows⟩ := hinside
    apply Instr.mem_labelNames_of_isLabelOf (i := .label l span)
    · rw [hrows]
      simp
    · simp [Instr.isLabelOf]
  obtain ⟨before, after, rfl, hblock⟩ := h.stands
  have hearlier : before.findIdx? (·.isLabelOf l) = none := by
    rw [List.findIdx?_eq_none_iff]
    intro i hi
    apply h.first l hmem
    rw [hblock, List.append_assoc, List.take_left]
    exact hi
  rw [hblock, List.append_assoc, List.findIdx?_append, hearlier, List.findIdx?_append, hcode]
  simp [Nat.add_comm]

end Placed

/-! ## Guards as parts of the code -/

variable {ω : Type} [DecidableEq ν] {ps : Parts ν} {host : Host ω} {block : List Instr}
  {pos i : Nat} {test : Test} {truth : Bool} {span : Span} {label : Ident} {s s' : Store ω}

/-- A part that is run through leads to the next one. -/
theorem Placed.passes {p : Part ν} (h : ps.Placed block pos) (hi : ps[i]? = some p)
    (hrows : 0 < p.rows.length)
    (hrun : host.FallsThrough block (pos + ps.offset i) p.rows s s') :
    ps.Passes host block pos ⟨pos + ps.offset i, s⟩ [p.name] ⟨pos + ps.offset (i + 1), s'⟩ := by
  rw [offset_succ hi, ← Nat.add_assoc]
  apply Passes.part h.names hi hrows hrun
  show ¬ (_ ∧ pos + ps.offset i + p.rows.length < _)
  omega

/-- A part that ends with a jump leads to the part with the label. -/
theorem Placed.passes_to {p q : Part ν} {j : Nat} (h : ps.Placed block pos)
    (hi : ps[i]? = some p) (hj : ps[j]? = some q) (hij : i ≠ j) (hp : 0 < p.rows.length)
    (hq : 0 < q.rows.length)
    (hrun : host.RunsIn block (pos + ps.offset i) (pos + ps.offset i + p.rows.length)
      ⟨pos + ps.offset i, s⟩ ⟨pos + ps.offset j, s'⟩) :
    ps.Passes host block pos ⟨pos + ps.offset i, s⟩ [p.name] ⟨pos + ps.offset j, s'⟩ := by
  have houtside := not_inside_of_ne hj hq hij
  have hnext := offset_succ hi
  apply Passes.part h.names hi hp hrun
  show ¬ (pos + ps.offset i ≤ pos + ps.offset j ∧ pos + ps.offset j < _)
  omega

/-- A part that is only a label is passed, and nothing else happens. -/
theorem Placed.passes_label {name : ν} (h : ps.Placed block pos)
    (hi : ps[i]? = some ⟨name, [.label label span]⟩) (s : Store ω) :
    ps.Passes host block pos ⟨pos + ps.offset i, s⟩ [name] ⟨pos + ps.offset (i + 1), s⟩ := by
  have hstands := stands_part h.stands hi
  apply h.passes hi (Nat.succ_pos _)
  exact .next (Nat.le_refl _) (Nat.lt_succ_self _) (Host.step_next hstands.row rfl) (.refl _)

/-- A part that falls through to a jump at its end leads to the part with the label. -/
theorem Placed.passes_jump {name name' : ν} {is rest : List Instr} {span' : Span} {j : Nat}
    (h : ps.Placed block pos) (hi : ps[i]? = some ⟨name, is ++ [.jump label span]⟩)
    (hj : ps[j]? = some ⟨name', .label label span' :: rest⟩) (hij : i ≠ j)
    (hrun : host.FallsThrough block (pos + ps.offset i) is s s') :
    ps.Passes host block pos ⟨pos + ps.offset i, s⟩ [name] ⟨pos + ps.offset j, s'⟩ := by
  have hstands := stands_part h.stands hi
  have hjump : host.step block ⟨pos + ps.offset i + is.length, s'⟩ =
      some ⟨pos + ps.offset j, s'⟩ := Host.step_jump hstands.right.row rfl (h.findIdx? hj)
  apply h.passes_to hi hj hij (by simp) (by simp)
  apply (hrun.widen (Nat.le_refl _) (by simp)).trans
  exact .next (by simp) (by simp) hjump (.refl _)

end Parts

/-! ## Conditions in a row -/

/-- The first conditions of a row all have the same truth, one after the other. The conditions are
given with where they stand. -/
inductive AllYield {ω : Type} (host : Host ω) (block : List Instr) (placed : List (Nat × Test))
    (b : Bool) : Nat → Store ω → Store ω → Prop where
  | start (s : Store ω) : AllYield host block placed b 0 s s
  | next {k row : Nat} {test : Test} {s s' s'' : Store ω}
      (before : AllYield host block placed b k s s') (hk : placed[k]? = some (row, test))
      (hyields : test.Yields host block row s' b s'') : AllYield host block placed b (k + 1) s s''

namespace AllYield

variable {ω : Type} {host : Host ω} {block : List Instr} {placed : List (Nat × Test)}

/-- If every condition has some truth wherever it is asked, then either all conditions have the
same truth or there is a first one that has the other. -/
theorem all_or_first (hall : ∀ p ∈ placed, ∀ s, ∃ b s', p.2.Yields host block p.1 s b s')
    (b : Bool) (s : Store ω) :
    (∃ s', AllYield host block placed b placed.length s s') ∨
    ∃ k p s₁ s₂, placed[k]? = some p ∧ AllYield host block placed b k s s₁ ∧
      p.2.Yields host block p.1 s₁ (!b) s₂ := by
  have hsome : ∀ k ≤ placed.length, (∃ s', AllYield host block placed b k s s') ∨
      ∃ k p s₁ s₂, placed[k]? = some p ∧ AllYield host block placed b k s s₁ ∧
        p.2.Yields host block p.1 s₁ (!b) s₂ := by
    intro k hk
    induction k with
    | zero => exact .inl ⟨s, .start s⟩
    | succ k ih =>
      rcases ih (Nat.le_of_succ_le hk) with ⟨s₁, hbefore⟩ | hfirst
      · have hget : placed[k]? = some placed[k] := List.getElem?_eq_getElem hk
        obtain ⟨b', s₂, hyields⟩ := hall placed[k] (List.getElem_mem hk) s₁
        by_cases hb : b' = b
        · subst hb
          exact .inl ⟨s₂, .next hbefore hget hyields⟩
        · obtain rfl : b' = !b := Bool.eq_not_of_ne hb
          exact .inr ⟨k, _, s₁, s₂, hget, hbefore, hyields⟩
      · exact .inr hfirst
  exact hsome _ (Nat.le_refl _)

variable {ν : Type} [DecidableEq ν] {ps : Parts ν} {pos first k : Nat} {name : Nat → ν}
  {truth : Bool} {span : Span} {s s' : Store ω}

/-- As long as no condition has the truth that the guards ask for, each condition is asked once, in
order. -/
theorem passes (h : AllYield host block placed (!truth) k s s') (hps : ps.Placed block pos)
    (hparts : ∀ i row test, placed[i]? = some (row, test) → row = pos + ps.offset (first + i) ∧
      ∃ label, ps[first + i]? = some ⟨name i, test.guarded truth span label⟩) :
    ps.Passes host block pos ⟨pos + ps.offset first, s⟩ ((List.range k).map name)
      ⟨pos + ps.offset (first + k), s'⟩ := by
  induction h with
  | start s => exact .refl _
  | @next k row test s s' s'' _ hk hyields ih =>
    obtain ⟨rfl, label, hpart⟩ := hparts k row test hk
    have hskips := hyields.skips (Parts.stands_part hps.stands hpart)
    have hone := hps.passes hpart (by simp [Test.length_guarded]) hskips
    rw [List.range_succ, List.map_append]
    exact ih.trans hone

end AllYield

end BytecodeCompiler
