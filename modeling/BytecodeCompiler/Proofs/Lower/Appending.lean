import BytecodeCompiler.Proofs.Lower.Termination

-- Lowering only appends. It does not look at what stands in the block already, so it does the same
-- behind any instructions, also where it fails part way. It forgets no shared expression that was
-- computed. And in a tree in which nodes list only nodes before them it does the same however many
-- steps it may take, if these are enough.

namespace BytecodeCompiler

/-- The state with instructions before those of its block. -/
def LowerState.after {σ : Type} (before : Array Instr) (s : LowerState σ) : LowerState σ :=
  ⟨s.names, s.loopEnds, s.processed, before ++ s.out⟩

@[simp]
theorem LowerState.after_empty {σ : Type} (s : LowerState σ) : s.after #[] = s := by
  rw [LowerState.after, Array.empty_append]

/-- The state with an empty block. -/
def LowerState.emptied {σ : Type} (s : LowerState σ) : LowerState σ :=
  ⟨s.names, s.loopEnds, s.processed, #[]⟩

@[simp]
theorem LowerState.after_emptied {σ : Type} (s : LowerState σ) : s.emptied.after s.out = s := by
  rw [LowerState.after, LowerState.emptied, Array.append_empty]

theorem Tree.ordered_iff (t : Tree) :
    t.Ordered ↔
      ∀ parent : Fin t.nodes.size, ∀ c ∈ t.nodes[parent].kind.children, c < parent.val := by
  constructor
  · intro h parent c hc
    exact h parent c ⟨t.nodes[parent], Array.getElem?_eq_getElem parent.isLt, hc⟩
  · rintro h parent child ⟨n, hn, hc⟩
    obtain ⟨hlt, rfl⟩ := Array.getElem?_eq_some_iff.mp hn
    exact h ⟨parent, hlt⟩ child hc

instance (t : Tree) : Decidable t.Ordered := decidable_of_iff _ t.ordered_iff.symm

namespace Lower

variable {σ : Type} {α β γ δ : Type}

/-! ## Runs behind instructions -/

/-- The state that a run ends in, also if it fails. -/
def lastState : EStateM.Result Fault (LowerState σ) α → LowerState σ
  | .ok _ s | .error _ s => s

/-- The end of a run, with instructions before those of its block. -/
def endAfter (before : Array Instr) :
    EStateM.Result Fault (LowerState σ) α → EStateM.Result Fault (LowerState σ) α
  | .ok a s => .ok a (s.after before)
  | .error fault s => .error fault (s.after before)

@[simp]
theorem endAfter_empty (r : EStateM.Result Fault (LowerState σ) α) : endAfter #[] r = r := by
  cases r with
  | ok a s => rw [endAfter, LowerState.after_empty]
  | error fault s => rw [endAfter, LowerState.after_empty]

/-- A run ends like another one that had instructions before its block: with related results or the
same fault, and in the same state behind the instructions. The wanted expressions are computed. -/
inductive EndsBehind (wanted : List NodeId) (before : Array Instr) (rel : α → β → Prop) :
    EStateM.Result Fault (LowerState σ) α → EStateM.Result Fault (LowerState σ) β → Prop
  | ok {a : α} {b : β} {s : LowerState σ} (hrel : rel a b) (hwanted : wanted ⊆ s.processed) :
      EndsBehind wanted before rel (.ok a s) (.ok b (s.after before))
  | error {fault : Fault} {s : LowerState σ} (hwanted : wanted ⊆ s.processed) :
      EndsBehind wanted before rel (.error fault s) (.error fault (s.after before))

/-- Once the wanted expressions are computed, the second step does behind any instructions what the
first one does. -/
def Behind (wanted : List NodeId) (rel : α → β → Prop) (m : Lower σ α) (m' : Lower σ β) : Prop :=
  ∀ before s, wanted ⊆ s.processed → EndsBehind wanted before rel (m s) (m' (s.after before))

variable {wanted : List NodeId}

/-- Behind instructions, the second step ends as the first one does without them. -/
theorem Behind.run_after {good : α → Prop} {m m' : Lower σ α} (h : Behind wanted (Same good) m m')
    {s : LowerState σ} (hs : wanted ⊆ s.processed) (before : Array Instr) :
    m' (s.after before) = endAfter before (m s) := by
  have hrun := h before s hs
  generalize m s = r at hrun ⊢
  generalize m' (s.after before) = r' at hrun ⊢
  cases hrun with
  | ok hsame =>
    rw [hsame.1]
    rfl
  | error => rfl

/-- Behind no instructions, the steps do the same. -/
theorem Behind.run_eq {good : α → Prop} {m m' : Lower σ α} (h : Behind wanted (Same good) m m')
    {s : LowerState σ} (hs : wanted ⊆ s.processed) : m' s = m s := by
  have hrun := h.run_after hs #[]
  rwa [LowerState.after_empty, endAfter_empty] at hrun

/-- What stands in the block stays there, and the rest is done as in an empty block. -/
theorem Behind.run_emptied {good : α → Prop} {m m' : Lower σ α} (h : Behind [] (Same good) m m')
    (s : LowerState σ) : m' s = endAfter s.out (m s.emptied) := by
  have hrun := h.run_after (List.nil_subset s.emptied.processed) s.out
  rwa [LowerState.after_emptied] at hrun

/-- What was computed stays computed, also where a step fails. -/
theorem Behind.subset_lastState {rel : α → β → Prop} {m : Lower σ α} {m' : Lower σ β}
    (h : Behind wanted rel m m') {s : LowerState σ} (hs : wanted ⊆ s.processed) :
    wanted ⊆ (lastState (m s)).processed := by
  have hrun := h #[] s hs
  generalize m s = r at hrun ⊢
  generalize m' (s.after #[]) = r' at hrun
  cases hrun with
  | ok _ hwanted => exact hwanted
  | error hwanted => exact hwanted

theorem Behind.bind {rel : α → β → Prop} {rel' : γ → δ → Prop} {m : Lower σ α} {m' : Lower σ β}
    {f : α → Lower σ γ} {f' : β → Lower σ δ} (hm : Behind wanted rel m m')
    (hf : ∀ a b, rel a b → Behind wanted rel' (f a) (f' b)) :
    Behind wanted rel' (m >>= f) (m' >>= f') := by
  intro before s hs
  have hfirst := hm before s hs
  cases hrun : m s with
  | ok a s₁ =>
    generalize hrun' : m' (s.after before) = result at hfirst
    rw [hrun] at hfirst
    cases hfirst with
    | ok hrel hs₁ =>
      rw [bind_of_ok hrun, bind_of_ok hrun']
      exact hf _ _ hrel before s₁ hs₁
  | error fault s₁ =>
    generalize hrun' : m' (s.after before) = result at hfirst
    rw [hrun] at hfirst
    cases hfirst with
    | error hs₁ =>
      rw [bind_of_error hrun, bind_of_error hrun']
      exact .error hs₁

theorem behind_push (i : Instr) :
    Behind wanted (Same fun _ => True) (push i : Lower σ Unit) (push i) := by
  intro before s hs
  have hpush : push i (s.after before) =
      .ok () (LowerState.after before ⟨s.names, s.loopEnds, s.processed, s.out.push i⟩) := by
    simp [push, LowerState.after]
  rw [hpush]
  exact .ok ⟨rfl, trivial⟩ hs

/-- Lowering next to lowering behind instructions. -/
def appending (wanted : List NodeId) : Pairing σ σ where
  step := Behind wanted
  accepts _ := True
  spans _ := True
  faults _ := True
  step_pure h _ _ hs := .ok h hs
  step_throw _ _ _ hs := .error hs
  step_bind := Behind.bind
  step_push _ _ _ := behind_push _
  step_isProcessed _ _ _ _ hs := .ok ⟨rfl, trivial⟩ hs
  step_markProcessed id _ s hs :=
    .ok (s := ⟨s.names, s.loopEnds, id :: s.processed, s.out⟩) ⟨rfl, trivial⟩
      (List.Subset.trans hs (List.subset_cons_self _ _))
  spans_none := trivial
  accepts_value _ _ _ := trivial
  accepts_wrapped _ _ _ _ := trivial
  accepts_iterable _ _ _ _ := trivial

theorem appending_covers (t : Tree) : (appending wanted : Pairing σ σ).Covers t where
  faults _ := trivial
  spans _ := trivial

/-- A block is lowered on its own, so nothing stands before it on either side. -/
theorem behind_inBlock {m m' : Lower σ Unit} (h : Behind wanted (Same fun _ => True) m m') :
    Behind wanted Eq (inBlock m) (inBlock m') := by
  intro before s hs
  have hinside := h #[] ⟨s.names, s.loopEnds, s.processed, #[]⟩ hs
  rw [LowerState.after_empty] at hinside
  simp only [inBlock, LowerState.after]
  generalize m ⟨s.names, s.loopEnds, s.processed, #[]⟩ = r at hinside
  generalize m' ⟨s.names, s.loopEnds, s.processed, #[]⟩ = r' at hinside
  cases hinside with
  | @ok _ _ s₁ _ hs₁ =>
    rw [LowerState.after_empty]
    exact .ok (s := ⟨s₁.names, s₁.loopEnds, s₁.processed, s.out⟩) rfl hs₁
  | @error _ s₁ hs₁ =>
    rw [LowerState.after_empty]
    exact .error (s := ⟨s₁.names, s₁.loopEnds, s₁.processed, s.out⟩) hs₁

def appendingControl : (appending wanted : Pairing σ σ).Control where
  label := Eq
  row := Eq
  step_inBlock := behind_inBlock
  push_block _ h := h ▸ behind_push _
  push_label _ h := h ▸ behind_push _
  push_jump _ h := h ▸ behind_push _
  push_compareJump _ _ _ h := h ▸ behind_push _

section Trees

variable [NameSupply σ]

theorem behind_fresh : Behind wanted Eq (fresh : Lower σ Ident) fresh := by
  intro before s hs
  simp only [fresh, LowerState.after]
  cases NameSupply.fresh s.names with
  | none => exact .error (s := s) hs
  | some drawn => exact .ok (s := ⟨drawn.2, s.loopEnds, s.processed, s.out⟩) rfl hs

omit [NameSupply σ] in
theorem behind_breakLoop (t : Tree) (id : NodeId) (n : Node) :
    Behind wanted (Same fun _ => True) (breakLoop t id n : Lower σ Unit) (breakLoop t id n) := by
  have hget : Behind wanted (fun a b => b.loopEnds = a.loopEnds)
      (get : Lower σ (LowerState σ)) get := fun _ _ hs => .ok rfl hs
  unfold breakLoop
  cases t.enclosingLoop id with
  | error fault => exact (appending wanted).step_throw trivial
  | ok found =>
    cases found with
    | none => exact (appending wanted).step_throw trivial
    | some loop =>
      refine hget.bind fun a b hsame => ?_
      rw [hsame]
      cases a.loopEnds.lookup loop with
      | none => exact (appending wanted).step_throw trivial
      | some finish => exact behind_push _

theorem appendingControl_complete (t : Tree) :
    (appendingControl : (appending wanted : Pairing σ σ).Control).Complete t where
  fresh := behind_fresh
  takesBodies _ _ _ h := by
    obtain rfl := (h : _ = _)
    exact behind_push _
  note id l l' h := by
    obtain rfl := (h : _ = _)
    intro before s hs
    exact .ok (s := ⟨s.names, (id, l) :: s.loopEnds, s.processed, s.out⟩) ⟨rfl, trivial⟩ hs
  leave {id n} _ := behind_breakLoop t id n

variable {t : Tree}

/-- On a tree in order, lowering a node is alike with any two numbers of steps that are enough for
the nodes up to it. -/
theorem visit_within_of_lt (wanted : List NodeId) (hordered : t.Ordered) {id : Nat}
    {steps steps' : Nat} (h : id < steps) (h' : id < steps') :
    (appending wanted : Pairing σ σ).Visit (within t steps) (within t steps') id := by
  induction id using Nat.strongRecOn generalizing steps steps' with
  | ind id ih =>
    obtain ⟨k, rfl⟩ := Nat.exists_eq_add_of_lt h
    obtain ⟨k', rfl⟩ := Nat.exists_eq_add_of_lt h'
    refine (appendingControl_complete t).visit_rule (appending_covers t).lenient
      (fun c _ => (appending_covers t).fits c) fun c hc => ?_
    have hlt := hordered.lt_of_below hc
    exact ih c hlt (by omega) (by omega)

/-- An operand that is lowered on its own is lowered to the same behind any instructions, and with
any number of steps that is enough. -/
theorem operand_after (hordered : t.Ordered) {id steps : Nat} (hid : id < t.size)
    (hsteps : id < steps) {s s' : LowerState σ} {v : Instr} (h : value t id s = .ok v s')
    (before : Array Instr) :
    operand t (within t steps) id (s.after before) = .ok v (s'.after before) := by
  have hvisit := visit_within_of_lt (σ := σ) [] hordered (Nat.lt_succ_of_lt hid) hsteps
  have hoperand := hvisit.value (appending_covers t).lenient ((appending_covers t).fits id)
  have hrun := Behind.run_after hoperand (List.nil_subset s.processed) before
  have hvalue : operand t (within t (t.size + 1)) id s = .ok v s' := h
  rwa [hvalue] at hrun

/-! ## Entry points -/

/-- Lowering only appends, and does not look at what stands in the block. In any tree and from any
state, a node, a node that must give an operand and a file are lowered as into an empty block, with
the same result or fault, and leave the same names, loops and computed expressions. The block then
holds what stood there and after it what the empty one holds, also where lowering fails part way.
With any number of steps it is the same, so a tree with cycles is cut off at the same point. -/
theorem lowering_only_appends (t : Tree) (id : NodeId) (s : LowerState σ) :
    node t id s = endAfter s.out (node t id s.emptied) ∧
    value t id s = endAfter s.out (value t id s.emptied) ∧
    root t id s = endAfter s.out (root t id s.emptied) ∧
    ∀ steps, within t steps id s = endAfter s.out (within t steps id s.emptied) := by
  have hcovers : (appending [] : Pairing σ σ).Covers t := appending_covers t
  have hvisit : ∀ steps, (appending [] : Pairing σ σ).Visit (within t steps) (within t steps) id :=
    fun steps => (appendingControl_complete t).visit_within hcovers steps id
  have hvalue := (appendingControl_complete t).value_within hcovers (enough t) id
  have hroot := (appendingControl_complete t).step_root hcovers id
  exact ⟨Behind.run_emptied (hvisit (enough t)) s, Behind.run_emptied hvalue s,
    Behind.run_emptied hroot s, fun steps => Behind.run_emptied (hvisit steps) s⟩

-- A call is lowered, and then a break that is in no loop. The call stays in the block.
example :
    let t := Tree.ofNodes [(.ident "f", .none), (.call 0 [], .none), (.exprStmt 1, .none),
      (.breakLoop, .none), (.file "a" [2, 3], .none)]
    let call := .call (.reference (.name "f") .none) (.args [] .none) .none
    root t 4 ⟨SequentialNames.start, [], [], #[top]⟩ =
      .error (.breakOutsideLoop .none) ⟨.start, [], [], #[top, call]⟩ := rfl

end Trees

end Lower

end BytecodeCompiler
