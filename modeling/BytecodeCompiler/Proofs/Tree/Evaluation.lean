import BytecodeCompiler.Lower
import BytecodeCompiler.Proofs.Instr.ResultStack
import BytecodeCompiler.Proofs.Tree.WellFormed

-- What expressions mean: their parts are evaluated from left to right, and then an engine computes
-- the expression from the values of its parts. Literals, names and literals of several members are
-- held as they are and need no engine.

namespace BytecodeCompiler

/-! ## Values that are held and values that are computed -/

/-- Whether the node is a value as soon as its parts are. -/
def NodeKind.isHeld : NodeKind → Bool
  | .literal | .ident _ | .tuple _ | .array _ | .struct _ | .structAttr .. | .spread _ => true
  | _ => false

/-- Nothing in the expression has to be computed. -/
inductive Tree.Inline (t : Tree) : NodeId → Prop
  | held {id : NodeId} {n : Node} (hn : t.node? id = some n) (hkind : n.kind.isHeld = true)
      (hparts : ∀ c ∈ n.kind.values, t.Inline c) : t.Inline id

theorem Tree.inline_iff {t : Tree} {id : NodeId} {n : Node} (hn : t.node? id = some n) :
    t.Inline id ↔ n.kind.isHeld = true ∧ ∀ c ∈ n.kind.values, t.Inline c := by
  constructor
  · rintro ⟨hn', hkind, hparts⟩
    cases hn.symm.trans hn'
    exact ⟨hkind, hparts⟩
  · rintro ⟨hkind, hparts⟩
    exact .held hn hkind hparts

/-- The node is an expression that the result stack is enough for: nothing in it is taken for the
top of the stack by its name, no cast has its value already, and of a call either the callee or the
arguments are held. -/
def Node.IsPlain (t : Tree) (n : Node) : Prop :=
  match n.kind with
  | .literal => ∀ v ∈ n.info.value, v.isTop = false
  | .ident _ => ∀ i ∈ n.ident?, (Value.reference i).isTop = false
  | .cast _ => n.info.value = none
  | .call callee args => t.Inline callee ∨ ∀ c ∈ args, t.Inline c
  | .unary .. | .binary .. | .ternary .. | .index .. | .dot .. | .tuple _ | .array _ | .struct _
  | .structAttr .. | .spread _ | .lambda _ => True
  | _ => False

/-- The expression and all its parts are plain. The body of a function is no part of it. -/
inductive Tree.Plain (t : Tree) : NodeId → Prop
  | node {id : NodeId} {n : Node} (hn : t.node? id = some n) (hplain : n.IsPlain t)
      (hparts : ∀ c ∈ n.kind.values, t.Plain c) : t.Plain id

/-! ## Meaning -/

namespace Node

/-- The name that the machine sees. -/
def machineIdent (n : Node) (name : String) : Ident := n.ident?.getD (.name name)

/-- The value of a node that is held, from the values of its parts. -/
def heldTerm (t : Tree) (n : Node) (xs : List Term) : Option Term :=
  match n.kind, xs with
  | .literal, [] => n.info.value.map .inline
  | .ident name, [] =>
    some (.inline (.named (n.machineIdent name) (n.info.value.getD .nil)))
  | .tuple _, xs | .array _, xs | .struct _, xs => n.ty?.map (.iterable · xs)
  | .structAttr .., [x] => some x
  | .spread expr, [x] => (n.ty? <|> (t.node? expr).bind Node.ty?).map (.wrapped · x)
  | _, _ => none

/-- What is computed at a node, from the values of its parts in the order of the source. -/
def computedTerm (n : Node) (xs : List Term) : Option Term :=
  match n.kind, xs with
  | .unary op _, [x] => some (.unary op x)
  | .binary op _ _, [x, y] => some (.binary op x y)
  | .ternary .., [x, y, z] => some (.ternary x y z)
  | .index _ _ nilSafe, [x, y] => some (.index nilSafe x y)
  | .dot _ name nilSafe, [x] => some (.attr nilSafe x (n.machineIdent name))
  | .cast _, [x] => n.ty?.map (.cast · x)
  | .call .., x :: xs => some (.call x (.iterable (.array .any) xs))
  | _, _ => none

end Node

namespace Tree

/-- The statements of a block become these instructions, under some names for the labels. -/
def LowersTo (t : Tree) (block : NodeId) (body : List Instr) : Prop :=
  ∃ (σ : Type) (_ : NameSupply σ) (steps : Nat) (s s' : LowerState σ),
    Lower.body t (Lower.within t steps) block s = .ok body s'

/-- Expressions in a row have these values, from left to right, and change the engine so. -/
inductive Evaluates {ω : Type} (e : Engine ω) (t : Tree) :
    List NodeId → ω → List Term → ω → Prop
  | nil {w : ω} : Evaluates e t [] w [] w
  | cons {id : NodeId} {ids : List NodeId} {w w₁ w₂ : ω} {x : Term} {xs : List Term}
      (first : Evaluates e t [id] w [x] w₁) (others : Evaluates e t ids w₁ xs w₂) :
      Evaluates e t (id :: ids) w (x :: xs) w₂
  | held {id : NodeId} {n : Node} {w w₁ : ω} {xs : List Term} {x : Term}
      (hn : t.node? id = some n) (hparts : Evaluates e t n.kind.values w xs w₁)
      (hx : n.heldTerm t xs = some x) : Evaluates e t [id] w [x] w₁
  | computed {id : NodeId} {n : Node} {w w₁ : ω} {xs : List Term} {x : Term}
      (hn : t.node? id = some n) (hparts : Evaluates e t n.kind.values w xs w₁)
      (hx : n.computedTerm xs = some x) :
      Evaluates e t [id] w [(e.compute w₁ x).1] (e.compute w₁ x).2
  | function {id : NodeId} {n : Node} {w : ω} {block : NodeId} {signature : Signature}
      {body : List Instr} (hn : t.node? id = some n) (hkind : n.kind = .lambda block)
      (hsignature : n.ty?.bind Ty.signature? = some signature) (hbody : t.LowersTo block body) :
      Evaluates e t [id] w [(e.compute w (.closure signature body)).1]
        (e.compute w (.closure signature body)).2

variable {ω : Type} {e : Engine ω} {t : Tree}

theorem Evaluates.append {ids js : List NodeId} {w w₁ w₂ : ω} {xs ys : List Term}
    (h : Evaluates e t ids w xs w₁) (h' : Evaluates e t js w₁ ys w₂) :
    Evaluates e t (ids ++ js) w (xs ++ ys) w₂ := by
  induction h with
  | nil => exact h'
  | cons first _ _ ih => exact .cons first (ih h')
  | held hn hparts hx => exact .cons (.held hn hparts hx) h'
  | computed hn hparts hx => exact .cons (.computed hn hparts hx) h'
  | function hn hkind hsignature hbody => exact .cons (.function hn hkind hsignature hbody) h'

theorem Evaluates.length_eq {ids : List NodeId} {w w' : ω} {xs : List Term}
    (h : Evaluates e t ids w xs w') : xs.length = ids.length := by
  induction h with
  | nil => rfl
  | cons _ _ _ ih => exact congrArg (· + 1) ih
  | held | computed | function => rfl

/-! ## Evaluation with numbered results -/

theorem isHeld_of_heldTerm {n : Node} {xs : List Term} {x : Term}
    (h : n.heldTerm t xs = some x) : n.kind.isHeld = true := by
  obtain ⟨kind, span, parent, info⟩ := n
  cases kind with
  | literal | ident | tuple | array | struct | structAttr | spread => rfl
  | _ => simp [Node.heldTerm] at h

/-- A node that is held has the results of its parts. -/
theorem numbers_of_heldTerm {n : Node} {xs : List Term} {x : Term}
    (h : n.heldTerm t xs = some x) : x.numbers = Term.numbersAll xs := by
  unfold Node.heldTerm at h
  split at h
  · obtain ⟨v, -, rfl⟩ := Option.map_eq_some_iff.mp h
    rfl
  · cases h
    rfl
  · obtain ⟨ty, -, rfl⟩ := Option.map_eq_some_iff.mp h
    rfl
  · obtain ⟨ty, -, rfl⟩ := Option.map_eq_some_iff.mp h
    rfl
  · obtain ⟨ty, -, rfl⟩ := Option.map_eq_some_iff.mp h
    rfl
  · cases h
    simp [Term.numbersAll]
  · obtain ⟨ty, -, rfl⟩ := Option.map_eq_some_iff.mp h
    simp [Term.numbers, Term.numbersAll]
  · cases h

/-- The results in the values came about by the end of the evaluation. -/
theorem numbers_lt_of_evaluates {ids : List NodeId} {w w' : Nat} {xs : List Term}
    (h : Evaluates .numbered t ids w xs w') : w ≤ w' ∧ ∀ k ∈ Term.numbersAll xs, k < w' := by
  induction h with
  | nil => exact ⟨Nat.le_refl _, fun k hk => nomatch hk⟩
  | cons first others ihFirst ihOthers =>
    refine ⟨Nat.le_trans ihFirst.1 ihOthers.1, fun k hk => ?_⟩
    rcases List.mem_append.mp hk with hk | hk
    · exact Nat.lt_of_lt_of_le (ihFirst.2 k (by simpa [Term.numbersAll] using hk)) ihOthers.1
    · exact ihOthers.2 k hk
  | held hn hparts hx ih =>
    refine ⟨ih.1, fun k hk => ih.2 k ?_⟩
    rw [← numbers_of_heldTerm hx]
    simpa [Term.numbersAll] using hk
  | @computed _ _ _ w₁ _ x hn hparts hx ih =>
    have hresult : Engine.numbered.compute w₁ x = (.result w₁, w₁ + 1) := rfl
    rw [hresult]
    refine ⟨Nat.le_succ_of_le ih.1, fun k hk => ?_⟩
    simp [Term.numbersAll, Term.numbers] at hk
    omega
  | @function _ _ w _ signature body hn hkind hsignature hbody =>
    have hresult :
        Engine.numbered.compute w (.closure signature body) = (.result w, w + 1) := rfl
    rw [hresult]
    refine ⟨Nat.le_succ w, fun k hk => ?_⟩
    simp [Term.numbersAll, Term.numbers] at hk
    omega

/-- An expression that is not held gives the machine something to compute. -/
theorem lt_of_evaluates {ids : List NodeId} {w w' : Nat} {xs : List Term}
    (h : Evaluates .numbered t ids w xs w') (hids : ¬ ∀ id ∈ ids, t.Inline id) : w < w' := by
  induction h with
  | nil => exact absurd (fun id hid => nomatch hid) hids
  | @cons id ids _ _ _ _ _ first others ihFirst ihOthers =>
    have hle := (numbers_lt_of_evaluates first).1
    have hle' := (numbers_lt_of_evaluates others).1
    by_cases hfirst : t.Inline id
    · have hlt := ihOthers fun hothers => hids (List.forall_mem_cons.mpr ⟨hfirst, hothers⟩)
      omega
    · have hlt := ihFirst fun hall => hfirst (hall id List.mem_cons_self)
      omega
  | held hn hparts hx ih =>
    refine ih fun hall => hids fun id hid => ?_
    rw [List.mem_singleton.mp hid, inline_iff hn]
    exact ⟨isHeld_of_heldTerm hx, hall⟩
  | computed hn hparts hx => exact Nat.lt_succ_of_le (numbers_lt_of_evaluates hparts).1
  | function => exact Nat.lt_succ_self _

end Tree

end BytecodeCompiler
