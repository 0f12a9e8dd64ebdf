import BytecodeCompiler.Proofs.Emission.Layout

-- How instructions hand values on through the result stack. An instruction takes its operands in
-- the order in which they are written, and an operand that is the top of the stack pops it. What an
-- instruction computes from its operands is left to an engine, so that what holds for every engine
-- does not depend on what the operations mean.

namespace BytecodeCompiler

/-- Whether reading the value pops the result stack. -/
def Value.isTop (v : Value) : Bool := Register.ofValue? v == some .rpop

/-- The fallback of a reference does not matter. -/
theorem Value.isTop_named (name : Ident) (fallback : Value) :
    (Value.named name fallback).isTop = (Value.reference name).isTop := by
  cases name <;> rfl

/-- A value of the machine, by how it was written or how it came about. -/
inductive Term where
  | inline (v : Value)
  | wrapped (ty : Ty) (inner : Term)
  | iterable (ty : Ty) (members : List Term)
  | unary (op : Operator) (operand : Term)
  | binary (op : Operator) (left right : Term)
  | ternary (cond ifTrue ifFalse : Term)
  | index (nilSafe : Bool) (target position : Term)
  | attr (nilSafe : Bool) (target : Term) (name : Ident)
  | length (expr : Term)
  | cast (ty : Ty) (operand : Term)
  | call (callee args : Term)
  | closure (signature : Signature) (body : List Instr)
  /-- A result that is known by its number only. -/
  | result (number : Nat)

mutual

/-- The numbers of the results that a literal of several members holds, or of the one result. -/
def Term.numbers : Term → List Nat
  | .result k => [k]
  | .wrapped _ x => x.numbers
  | .iterable _ xs => Term.numbersAll xs
  | _ => []

def Term.numbersAll : List Term → List Nat
  | [] => []
  | x :: xs => x.numbers ++ Term.numbersAll xs

end

namespace Instr

/-! ## Operands -/

/-- The operands of an instruction, in the order in which they are written. -/
def wire : Instr → List Instr
  | .value .. | .typeAlias .. | .jump .. | .label .. | .lambda .. | .block .. | .use .. => []
  | .iterable _ members _ => members.reverse
  | .wrapped _ i _ | .set _ _ i _ | .unary _ i _ | .length i _ | .attrGet _ _ i _ | .cast _ i _
  | .ret i _ => [i]
  | .mov target v _ => [target, v]
  | .binary _ left right _ => [right, left]
  | .collection _ left right _ => [left, right]
  | .indexGet index _ target _ => [index, target]
  | .indexSet index target v _ => [index, target, v]
  | .attrSet _ _ target v _ => [target, v]
  | .call callee args _ => [callee, args]
  | .ternary cond ifTrue ifFalse _ => [ifFalse, ifTrue, cond]
  | .compareJump expr expected _ _ => [expr, expected]

theorem layoutReversed_eq (is : List Instr) : layoutReversed is = layoutAll is.reverse := by
  induction is with
  | nil => rfl
  | cons i is ih => simp [layoutReversed, layoutAll_append, layoutAll, ih]

/-- The operands stand in the code one after the other, with nothing between them. -/
theorem layoutAll_wire (i : Instr) : layoutAll i.wire <:+: i.layout := by
  cases i with
  | value v span => exact List.nil_infix
  | typeAlias decl ty span => exact List.nil_infix
  | jump l span => exact List.nil_infix
  | label name span => exact List.nil_infix
  | lambda signature body span => exact List.nil_infix
  | block body span => exact List.nil_infix
  | use mode package imports span => exact List.nil_infix
  | iterable ty members span =>
    rw [wire, ← layoutReversed_eq]
    exact List.suffix_append _ _ |>.isInfix
  | collection op left right span =>
    cases op with
    | add => exact ⟨[.place span, Piece.opcode .cadd], [], by simp [wire, layout, layoutAll]⟩
    | remove => exact ⟨[.place span, Piece.opcode .cremove], [], by simp [wire, layout, layoutAll]⟩
  | set decl ty expr span =>
    simp only [wire, layout, layoutAll, List.append_nil]
    exact List.suffix_append _ _ |>.isInfix
  | attrGet name nilSafe target span =>
    exact ⟨[.place span, Piece.opcode .aget, .bool nilSafe], [.ident name],
      by simp [wire, layout, layoutAll]⟩
  | compareJump expr expected l span =>
    exact ⟨[.place span, Piece.opcode .compareJump], [.target l],
      by simp [wire, layout, layoutAll]⟩
  | _ =>
    simp only [wire, layout, layoutAll, List.append_nil, List.append_assoc]
    exact List.suffix_append _ _ |>.isInfix

mutual

/-- Read an operand: its value, and the stack that is left. -/
def resolve : Instr → List Term → Option (Term × List Term)
  | .value v _, stack =>
    if v.isTop then
      match stack with
      | [] => none
      | x :: stack => some (x, stack)
    else some (.inline v, stack)
  | .wrapped ty inner _, stack => do
    let (x, stack) ← resolve inner stack
    return (.wrapped ty x, stack)
  | .iterable ty members _, stack => do
    let (xs, stack) ← resolveReversed members stack
    return (.iterable ty xs, stack)
  | _, _ => none

/-- Read a row of operands, the last one first. -/
def resolveReversed : List Instr → List Term → Option (List Term × List Term)
  | [], stack => some ([], stack)
  | i :: is, stack => do
    let (xs, stack) ← resolveReversed is stack
    let (x, stack) ← resolve i stack
    return (x :: xs, stack)

end

/-- Read a row of operands in order. -/
def resolveAll : List Instr → List Term → Option (List Term × List Term)
  | [], stack => some ([], stack)
  | i :: is, stack => do
    let (x, stack) ← resolve i stack
    let (xs, stack) ← resolveAll is stack
    return (x :: xs, stack)

theorem resolveAll_append (is js : List Instr) (stack : List Term) :
    resolveAll (is ++ js) stack = (resolveAll is stack).bind fun (xs, stack) =>
      (resolveAll js stack).map fun (ys, stack) => (xs ++ ys, stack) := by
  induction is generalizing stack with
  | nil => simp [resolveAll]
  | cons i is ih =>
    simp only [List.cons_append, resolveAll]
    cases resolve i stack with
    | none => rfl
    | some r =>
      simp only [Option.bind_eq_bind, Option.bind_some, ih]
      cases resolveAll is r.2 with
      | none => rfl
      | some r' => cases h : resolveAll js r'.2 <;> simp [h]

/-- The members of an iterable are read in the order in which they are written. -/
theorem resolveAll_reverse (is : List Instr) (stack : List Term) :
    resolveAll is.reverse stack =
      (resolveReversed is stack).map fun (xs, stack) => (xs.reverse, stack) := by
  induction is generalizing stack with
  | nil => rfl
  | cons i is ih =>
    rw [List.reverse_cons, resolveAll_append, ih, resolveReversed]
    cases resolveReversed is stack with
    | none => rfl
    | some r =>
      simp only [Option.map_some, Option.bind_some, Option.bind_eq_bind, resolveAll]
      cases resolve i r.2 with
      | none => rfl
      | some r' => simp

theorem length_of_resolveReversed {is : List Instr} {stack rest : List Term} {xs : List Term}
    (h : resolveReversed is stack = some (xs, rest)) : xs.length = is.length := by
  induction is generalizing xs rest with
  | nil =>
    cases h
    rfl
  | cons i is ih =>
    simp only [resolveReversed, Option.bind_eq_bind, Option.bind_eq_some_iff] at h
    obtain ⟨⟨ys, middle⟩, hothers, ⟨x, left⟩, -, hx⟩ := h
    cases hx
    exact congrArg (· + 1) (ih hothers)

theorem resolveReversed_append (is js : List Instr) (stack : List Term) :
    resolveReversed (is ++ js) stack = (resolveReversed js stack).bind fun (ys, stack) =>
      (resolveReversed is stack).map fun (xs, stack) => (xs ++ ys, stack) := by
  induction is generalizing stack with
  | nil => cases h : resolveReversed js stack <;> simp [resolveReversed, h]
  | cons i is ih =>
    simp only [List.cons_append, resolveReversed, ih]
    cases resolveReversed js stack with
    | none => rfl
    | some r =>
      simp only [Option.bind_eq_bind, Option.bind_some]
      cases resolveReversed is r.2 with
      | none => rfl
      | some r' => cases h : resolve i r'.2 <;> simp [h]

/-! ## What reading pops -/

mutual

/-- How many results an operand pops. -/
def pops : Instr → Nat
  | .value v _ => if v.isTop then 1 else 0
  | .wrapped _ inner _ => pops inner
  | .iterable _ members _ => popsAll members
  | _ => 0

def popsAll : List Instr → Nat
  | [] => 0
  | i :: is => popsAll is + pops i

end

theorem popsAll_append (is js : List Instr) : popsAll (is ++ js) = popsAll js + popsAll is := by
  induction is with
  | nil => simp [popsAll]
  | cons i is ih =>
    rw [List.cons_append, popsAll, popsAll, ih]
    omega

/-- Between the two stacks so many terms were popped, and their results are among the numbers. -/
def Popped (stack rest : List Term) (count : Nat) (numbers : List Nat) : Prop :=
  ∃ popped, stack = popped ++ rest ∧ popped.length = count ∧
    ∀ x ∈ popped, ∀ k ∈ x.numbers, k ∈ numbers

theorem Popped.trans {stack middle rest : List Term} {c c' : Nat} {ks ks' : List Nat}
    (h : Popped stack middle c ks) (h' : Popped middle rest c' ks') :
    Popped stack rest (c + c') (ks' ++ ks) := by
  obtain ⟨popped, rfl, rfl, hmem⟩ := h
  obtain ⟨popped', rfl, rfl, hmem'⟩ := h'
  refine ⟨popped ++ popped', (List.append_assoc ..).symm, List.length_append, ?_⟩
  intro x hx k hk
  rcases List.mem_append.mp hx with hx | hx
  · exact List.mem_append_right _ (hmem x hx k hk)
  · exact List.mem_append_left _ (hmem' x hx k hk)

mutual

/-- An operand pops what it says, and all of it is in its value. -/
theorem popped_of_resolve : (i : Instr) → {stack rest : List Term} → {x : Term} →
    resolve i stack = some (x, rest) → Popped stack rest (pops i) x.numbers
  | .value v span, stack, rest, x, h => by
    unfold resolve at h
    unfold pops
    split at h
    · rw [if_pos ‹_›]
      cases stack with
      | nil => cases h
      | cons y stack =>
        cases h
        exact ⟨[x], rfl, rfl, by simp⟩
    · rw [if_neg ‹_›]
      cases h
      exact ⟨[], rfl, rfl, by simp⟩
  | .wrapped ty inner span, stack, rest, x, h => by
    simp only [resolve, Option.bind_eq_bind, Option.bind_eq_some_iff] at h
    obtain ⟨⟨y, left⟩, hinner, hx⟩ := h
    cases hx
    simpa only [pops, Term.numbers] using popped_of_resolve inner hinner
  | .iterable ty members span, stack, rest, x, h => by
    simp only [resolve, Option.bind_eq_bind, Option.bind_eq_some_iff] at h
    obtain ⟨⟨ys, left⟩, hmembers, hx⟩ := h
    cases hx
    simpa only [pops, Term.numbers] using popped_of_resolveReversed members hmembers
  | .set .., _, _, _, h | .typeAlias .., _, _, _, h | .mov .., _, _, _, h | .unary .., _, _, _, h
  | .binary .., _, _, _, h | .collection .., _, _, _, h | .indexGet .., _, _, _, h
  | .indexSet .., _, _, _, h | .length .., _, _, _, h | .attrGet .., _, _, _, h
  | .attrSet .., _, _, _, h | .cast .., _, _, _, h | .call .., _, _, _, h
  | .ternary .., _, _, _, h | .compareJump .., _, _, _, h | .jump .., _, _, _, h
  | .label .., _, _, _, h | .lambda .., _, _, _, h | .block .., _, _, _, h | .ret .., _, _, _, h
  | .use .., _, _, _, h => by simp [resolve] at h

theorem popped_of_resolveReversed : (is : List Instr) → {stack rest : List Term} →
    {xs : List Term} → resolveReversed is stack = some (xs, rest) →
    Popped stack rest (popsAll is) (Term.numbersAll xs)
  | [], stack, rest, xs, h => by
    simp only [resolveReversed] at h
    cases h
    exact ⟨[], rfl, rfl, by simp⟩
  | i :: is, stack, rest, xs, h => by
    simp only [resolveReversed, Option.bind_eq_bind, Option.bind_eq_some_iff] at h
    obtain ⟨⟨ys, middle⟩, hothers, ⟨x, left⟩, hfirst, hx⟩ := h
    cases hx
    exact (popped_of_resolveReversed is hothers).trans (popped_of_resolve i hfirst)

end

/-! ## What instructions leave -/

/-- What an instruction computes from its operands, which come in the order in which they are
written. Other instructions leave nothing on the stack. -/
def outcome : Instr → List Term → Option Term
  | .unary op _ _, [x] => some (.unary op x)
  | .binary op _ _ _, [y, x] => some (.binary op x y)
  | .ternary _ _ _ _, [z, y, x] => some (.ternary x y z)
  | .indexGet _ nilSafe _ _, [y, x] => some (.index nilSafe x y)
  | .length _ _, [x] => some (.length x)
  | .attrGet name nilSafe _ _, [x] => some (.attr nilSafe x name)
  | .cast ty _ _, [x] => some (.cast ty x)
  | .call _ _ _, [x, y] => some (.call x y)
  | .lambda signature body _, [] => some (.closure signature body)
  | _, _ => none

end Instr

/-- What gives operations their meaning. It may keep a state of its own. -/
structure Engine (ω : Type) where
  compute : ω → Term → Term × ω

namespace Engine

/-- The engine that computes nothing and keeps the term. -/
def symbolic : Engine Unit := ⟨fun _ x => (x, ())⟩

/-- The engine that tells results apart by the order in which they come about. -/
def numbered : Engine Nat := ⟨fun k _ => (.result k, k + 1)⟩

variable {ω : Type}

/-- One instruction: read the operands, compute, and push the result. -/
def step (e : Engine ω) (i : Instr) : List Term × ω → Option (List Term × ω)
  | (stack, w) => do
    let (xs, stack) ← Instr.resolveAll i.wire stack
    let x ← i.outcome xs
    let (y, w) := e.compute w x
    return (y :: stack, w)

/-- A row of instructions without jumps. -/
def run (e : Engine ω) : List Instr → List Term × ω → Option (List Term × ω)
  | [], m => some m
  | i :: is, m => (e.step i m).bind (run e is)

theorem run_append (e : Engine ω) (is js : List Instr) (m : List Term × ω) :
    e.run (is ++ js) m = (e.run is m).bind (e.run js) := by
  induction is generalizing m with
  | nil => rfl
  | cons i is ih =>
    simp only [List.cons_append, run]
    cases e.step i m with
    | none => rfl
    | some m' => exact ih m'

/-- Once its operands are read, an instruction leaves its outcome in their place. -/
theorem run_concat {e : Engine ω} {is : List Instr} {i : Instr} {m : List Term × ω}
    {stack rest xs : List Term} {w : ω} {x : Term} (hrun : e.run is m = some (stack, w))
    (hread : Instr.resolveAll i.wire stack = some (xs, rest)) (hx : i.outcome xs = some x) :
    e.run (is ++ [i]) m = some ((e.compute w x).1 :: rest, (e.compute w x).2) := by
  rw [run_append, hrun]
  simp [run, step, hread, hx]

/-- After the last instruction, the result that is numbered last is on top. -/
theorem numbered_run_concat {is : List Instr} {i : Instr} {m : List Term × Nat}
    {stack : List Term} {w : Nat} (h : numbered.run (is ++ [i]) m = some (stack, w)) :
    ∃ k rest, stack = .result k :: rest ∧ w = k + 1 := by
  rw [run_append] at h
  obtain ⟨⟨stack', k⟩, -, hlast⟩ := Option.bind_eq_some_iff.mp h
  simp only [run, step, Option.bind_eq_bind, Option.bind_eq_some_iff] at hlast
  obtain ⟨m', ⟨⟨xs, rest⟩, -, x, -, hm'⟩, hlast⟩ := hlast
  cases hm'
  cases hlast
  exact ⟨k, rest, rfl, rfl⟩

end Engine

end BytecodeCompiler
