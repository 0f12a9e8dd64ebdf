import BytecodeCompiler.Proofs.Tree.Evaluation
import Mathlib.Data.List.Basic

-- Lowering of expressions is correct on the result stack. Expressions in a row are ready when their
-- code was run: what was computed waits on the stack, the latest on top, and reading the operands
-- from the last to the first gives the values of the expressions and the stack as it was before.
-- The rules are followed one by one here: what relates the code to the tree is the term that an
-- expression computes, and that is another one for every rule.

namespace BytecodeCompiler

open Instr (resolve resolveReversed resolveAll pops popsAll)

/-! ## Expressions that are ready -/

/-- The instructions made the operands ready: for every engine, running the first and reading the
second is evaluating the expressions. An operand pops nothing only if its expression is held. -/
structure Ready (t : Tree) (ids : List NodeId) (made operands : List Instr) : Prop where
  inline : popsAll operands = 0 ↔ ∀ id ∈ ids, t.Inline id
  evaluates : ∀ {ω : Type} (e : Engine ω) (w : ω), ∃ xs w' waiting, t.Evaluates e ids w xs w' ∧
    ∀ stack, e.run made (stack, w) = some (waiting ++ stack, w') ∧
      resolveReversed operands (waiting ++ stack) = some (xs, stack)

namespace Ready

variable {t : Tree} {ids ids' : List NodeId} {made made' operands operands' : List Instr}

theorem nil (t : Tree) : Ready t [] [] [] where
  inline := by simp [popsAll]
  evaluates _ w := ⟨[], w, [], .nil, fun _ => ⟨rfl, rfl⟩⟩

theorem append (h : Ready t ids made operands) (h' : Ready t ids' made' operands') :
    Ready t (ids ++ ids') (made ++ made') (operands ++ operands') where
  inline := by
    rw [Instr.popsAll_append, List.forall_mem_append, ← h.inline, ← h'.inline]
    omega
  evaluates e w := by
    obtain ⟨xs, w₁, waiting, hxs, hrun⟩ := h.evaluates e w
    obtain ⟨ys, w₂, waiting', hys, hrun'⟩ := h'.evaluates e w₁
    refine ⟨xs ++ ys, w₂, waiting' ++ waiting, hxs.append hys, fun stack => ?_⟩
    rw [Engine.run_append, (hrun stack).1, List.append_assoc]
    refine ⟨(hrun' _).1, ?_⟩
    rw [Instr.resolveReversed_append, (hrun' _).2]
    simp [(hrun stack).2]

/-- A node that is held is read by reading its parts. -/
theorem held {id : NodeId} {n : Node} {r : Instr} (hn : t.node? id = some n)
    (h : Ready t n.kind.values made operands) (hkind : n.kind.isHeld = true)
    (hpops : pops r = popsAll operands)
    (hr : ∀ {stack rest xs}, resolveReversed operands stack = some (xs, rest) →
      ∃ x, n.heldTerm t xs = some x ∧ resolve r stack = some (x, rest)) :
    Ready t [id] made [r] where
  inline := by
    have hsingle : popsAll [r] = pops r := Nat.zero_add _
    rw [hsingle, hpops, h.inline]
    simp only [List.mem_singleton, forall_eq, Tree.inline_iff hn, hkind, true_and]
  evaluates e w := by
    obtain ⟨xs, w', waiting, hxs, hrun⟩ := h.evaluates e w
    obtain ⟨x, hx, -⟩ := hr (hrun []).2
    refine ⟨[x], w', waiting, .held hn hxs hx, fun stack => ⟨(hrun stack).1, ?_⟩⟩
    obtain ⟨y, hy, hresolve⟩ := hr (hrun stack).2
    cases hx.symm.trans hy
    simp [resolveReversed, hresolve]

/-- The top of the stack is ready once an instruction has left the value of the node there. -/
theorem top_of_step {id : NodeId} (hid : ¬ t.Inline id) {i : Instr}
    (h : ∀ {ω : Type} (e : Engine ω) (w : ω), ∃ x w', t.Evaluates e [id] w [x] w' ∧
      ∀ stack, e.run (made ++ [i]) (stack, w) = some (x :: stack, w')) :
    Ready t [id] (made ++ [i]) [Lower.top] where
  inline := by
    have htop : popsAll [Lower.top] = 1 := rfl
    rw [htop]
    simp [hid]
  evaluates e w := by
    obtain ⟨x, w', hx, hrun⟩ := h e w
    exact ⟨[x], w', [x], hx, fun stack => ⟨hrun stack, rfl⟩⟩

/-- A node is computed by an instruction that takes the parts from the last to the first. -/
theorem computed {id : NodeId} {n : Node} {i : Instr} (hn : t.node? id = some n)
    (h : Ready t n.kind.values made operands) (hkind : n.kind.isHeld = false)
    (hwire : i.wire = operands.reverse)
    (hterm : ∀ xs, xs.length = operands.length →
      ∃ x, n.computedTerm xs = some x ∧ i.outcome xs.reverse = some x) :
    Ready t [id] (made ++ [i]) [Lower.top] := by
  refine top_of_step (by simp [Tree.inline_iff hn, hkind]) fun e w => ?_
  obtain ⟨xs, w', waiting, hxs, hrun⟩ := h.evaluates e w
  obtain ⟨x, hx, hout⟩ := hterm xs (Instr.length_of_resolveReversed (hrun []).2)
  refine ⟨_, _, .computed hn hxs hx, fun stack => ?_⟩
  have hread : resolveAll i.wire (waiting ++ stack) = some (xs.reverse, stack) := by
    rw [hwire, Instr.resolveAll_reverse, (hrun stack).2]
    rfl
  exact Engine.run_concat (hrun stack).1 hread hout

/-- What waits is what reading the operands pops. -/
theorem length_waiting {waiting xs : List Term}
    (h : ∀ stack, resolveReversed operands (waiting ++ stack) = some (xs, stack)) :
    waiting.length = popsAll operands := by
  obtain ⟨popped, hstack, hlength, -⟩ := Instr.popped_of_resolveReversed operands (h [])
  rw [List.append_cancel_right hstack, hlength]

/-- Expressions that were lowered first can be read first if they or the others are held. -/
theorem inTurn (h : Ready t ids made operands) (h' : Ready t ids' made' operands')
    (horder : (∀ id ∈ ids, t.Inline id) ∨ ∀ id ∈ ids', t.Inline id) {ω : Type} (e : Engine ω)
    (w : ω) : ∃ xs w₁ ys w₂, t.Evaluates e ids w xs w₁ ∧ t.Evaluates e ids' w₁ ys w₂ ∧
      ∀ stack, ∃ stack' middle, e.run (made ++ made') (stack, w) = some (stack', w₂) ∧
        resolveReversed operands stack' = some (xs, middle) ∧
        resolveReversed operands' middle = some (ys, stack) := by
  obtain ⟨xs, w₁, waiting, hxs, hrun⟩ := h.evaluates e w
  obtain ⟨ys, w₂, waiting', hys, hrun'⟩ := h'.evaluates e w₁
  have hlength := length_waiting fun stack => (hrun stack).2
  have hlength' := length_waiting fun stack => (hrun' stack).2
  refine ⟨xs, w₁, ys, w₂, hxs, hys, fun stack => ⟨waiting' ++ (waiting ++ stack), ?_⟩⟩
  rw [Engine.run_append, (hrun stack).1, Option.bind_some, (hrun' _).1]
  rcases horder with hheld | hheld
  · obtain rfl : waiting = [] := List.length_eq_zero_iff.mp (hlength.trans (h.inline.mpr hheld))
    exact ⟨waiting' ++ stack, rfl, (hrun _).2, (hrun' stack).2⟩
  · obtain rfl : waiting' = [] :=
      List.length_eq_zero_iff.mp (hlength'.trans (h'.inline.mpr hheld))
    exact ⟨stack, rfl, (hrun stack).2, (hrun' stack).2⟩

/-- A call takes the callee, which was lowered first, before the arguments. -/
theorem call {id callee : NodeId} {args : List NodeId} {n : Node} {f : Instr} {span : Span}
    (hn : t.node? id = some n) (hkind : n.kind = .call callee args)
    (h : Ready t [callee] made [f]) (h' : Ready t args made' operands')
    (horder : t.Inline callee ∨ ∀ c ∈ args, t.Inline c) :
    Ready t [id] (made ++ made' ++ [.call f (.args operands' span) span]) [Lower.top] := by
  refine top_of_step (by simp [Tree.inline_iff hn, hkind, NodeKind.isHeld]) fun e w => ?_
  obtain ⟨xs, w₁, ys, w₂, hxs, hys, hrun⟩ := h.inTurn h' (horder.imp_left (by simp)) e w
  obtain ⟨x, rfl⟩ : ∃ x, xs = [x] := by
    obtain ⟨_, _, _, hread, _⟩ := hrun []
    exact List.length_eq_one_iff.mp (Instr.length_of_resolveReversed hread)
  have hparts : t.Evaluates e n.kind.values w (x :: ys) w₂ := by
    rw [hkind]
    exact hxs.append hys
  have hx : n.computedTerm (x :: ys) = some (.call x (.iterable (.array .any) ys)) := by
    simp [Node.computedTerm, hkind]
  refine ⟨_, _, .computed hn hparts hx, fun stack => ?_⟩
  obtain ⟨stack', middle, hmade, hread, hread'⟩ := hrun stack
  have hcallee : resolve f stack' = some (x, middle) := by
    simpa [resolveReversed, Option.bind_eq_some_iff] using hread
  have htaken : resolveAll [f, .args operands' span] stack' =
      some ([x, .iterable (.array .any) ys], stack) := by
    simp [Instr.args, resolveAll, resolve, hcallee, hread']
  exact Engine.run_concat hmade htaken rfl

end Ready

/-! ## Steps and what they emit -/

namespace Lower

variable {σ : Type} {α β : Type}

/-- A step that succeeds appends instructions that are good for its result. -/
def Emits (m : Lower σ α) (good : List Instr → α → Prop) : Prop :=
  ∀ s a s', m s = .ok a s' → ∃ made, s'.out.toList = s.out.toList ++ made ∧ good made a

variable {good : List Instr → α → Prop} {good' : List Instr → β → Prop} {m : Lower σ α}
  {f : α → Lower σ β}

theorem Emits.bind (hm : Emits m good)
    (hf : ∀ a made, good made a → Emits (f a) fun made' b => good' (made ++ made') b) :
    Emits (m >>= f) good' := by
  intro s b s'' h
  obtain ⟨a, s', hfirst, hlast⟩ := bind_eq_ok h
  obtain ⟨made, hout, hgood⟩ := hm s a s' hfirst
  obtain ⟨made', hout', hgood'⟩ := hf a made hgood s' b s'' hlast
  exact ⟨made ++ made', by rw [hout', hout, List.append_assoc], hgood'⟩

theorem Emits.weaken {other : List Instr → α → Prop} (hm : Emits m good)
    (h : ∀ made a, good made a → other made a) : Emits m other := by
  intro s a s' hrun
  obtain ⟨made, hout, hgood⟩ := hm s a s' hrun
  exact ⟨made, hout, h made a hgood⟩

theorem emits_pure {a : α} (h : good [] a) : Emits (pure a : Lower σ α) good := by
  rintro s a s' hrun
  cases hrun
  exact ⟨[], (List.append_nil _).symm, h⟩

theorem emits_throw (fault : Fault) : Emits (throw fault : Lower σ α) good := by
  rintro s a s' hrun
  cases hrun

theorem emits_push {i : Instr} {good : List Instr → Unit → Prop} (h : good [i] ()) :
    Emits (push i : Lower σ Unit) good := by
  rintro s a s' hrun
  cases hrun
  exact ⟨[i], Array.toList_push, h⟩

/-- After an instruction that leaves a result, the operand is the top of the stack. -/
theorem emits_push_top {i : Instr} {good : List Instr → Instr → Prop} (h : good [i] top) :
    Emits (do push i; return top : Lower σ Instr) good := by
  have hpush : Emits (push i : Lower σ Unit) fun made _ => made = [i] := emits_push rfl
  refine hpush.bind fun _ made hmade => emits_pure ?_
  rw [hmade]
  exact h

theorem emits_nodeAt (t : Tree) (id : NodeId) :
    Emits (nodeAt t id : Lower σ Node) fun made n => made = [] ∧ t.node? id = some n := by
  unfold nodeAt
  split
  · exact emits_pure ⟨rfl, ‹_›⟩
  · exact emits_throw _

/-- Lowering into a new block appends nothing to the block at hand. -/
theorem emits_body (t : Tree) (walk : Walk σ) (id : NodeId) :
    Emits (body t walk id) fun made _ => made = [] := by
  refine (emits_nodeAt t id).bind ?_
  rintro n made ⟨rfl, -⟩
  split
  · rintro ⟨names, loopEnds, processed, out⟩ inside s' h
    simp only [inBlock] at h
    split at h
    · cases h
      exact ⟨[], (List.append_nil _).symm, rfl⟩
    · cases h
  · exact emits_throw _

theorem emits_tyOf (n : Node) (what : String) :
    Emits (tyOf n what : Lower σ Ty) fun made ty => made = [] ∧ n.ty? = some ty := by
  unfold tyOf
  split
  · exact emits_pure ⟨rfl, ‹_›⟩
  · exact emits_throw _

theorem emits_identOf (n : Node) (name : String) :
    Emits (identOf n name : Lower σ Ident) fun made i => made = [] ∧ i = n.machineIdent name := by
  unfold identOf
  split
  · rename_i i hi
    exact emits_pure ⟨rfl, by simp [Node.machineIdent, Node.ident?, hi]⟩
  · rename_i hnone
    have hname : n.machineIdent name = .name name := by
      simp [Node.machineIdent, Node.ident?, hnone]
    rw [hname]
    unfold identOfName Ident.ofName Ident.ofName?
    by_cases hsize : name.utf8ByteSize ≤ Ident.maxName
    · rw [if_pos hsize]
      exact emits_pure ⟨rfl, rfl⟩
    · rw [if_neg hsize]
      exact emits_throw _

/-! ## The rules of expressions -/

section Rules

variable {t : Tree} {walk : Walk σ}

/-- The step gives an operand for the expression and makes it ready. -/
abbrev EmitsValue (t : Tree) (id : NodeId) (m : Lower σ Instr) : Prop :=
  Emits m fun made r => Ready t [id] made [r]

/-- The walk makes plain expressions ready, and lowers blocks as they are lowered. -/
structure Evaluating (t : Tree) (walk : Walk σ) : Prop where
  value : ∀ {id}, t.Plain id →
    Emits (walk id) fun made result => ∃ r, result = some r ∧ Ready t [id] made [r]
  body : ∀ {block made s s'}, body t walk block s = .ok made s' → t.LowersTo block made

variable (hwalk : Evaluating t walk)

include hwalk

theorem emits_operand {id : NodeId} (hid : t.Plain id) : EmitsValue t id (operand t walk id) := by
  refine (hwalk.value hid).bind fun result made hready => ?_
  obtain ⟨r, rfl, hready⟩ := hready
  exact emits_pure (by simpa using hready)

theorem emits_operands {ids : List NodeId} (hids : ∀ id ∈ ids, t.Plain id) :
    Emits (operands t walk ids) fun made rs => Ready t ids made rs := by
  induction ids with
  | nil => exact emits_pure (.nil t)
  | cons id ids ih =>
    obtain ⟨hfirst, hothers⟩ := List.forall_mem_cons.mp hids
    refine (emits_operand hwalk hfirst).bind fun r made hr => ?_
    refine (ih hothers).bind fun rs made' hrs => ?_
    exact emits_pure (by simpa using hr.append hrs)

omit hwalk in
theorem emits_literal {id : NodeId} {n : Node} (hn : t.node? id = some n)
    (hkind : n.kind = .literal) (hplain : n.IsPlain t) :
    EmitsValue t id (literal n : Lower σ Instr) := by
  unfold literal
  split
  · rename_i v hv
    have htop : v.isTop = false := by
      simp only [Node.IsPlain, hkind] at hplain
      exact hplain v hv
    have hparts : Ready t n.kind.values [] [] := by
      rw [hkind]
      exact .nil t
    refine emits_pure (hparts.held hn (by rw [hkind]; rfl) (by simp [pops, popsAll, htop]) ?_)
    intro stack rest xs h
    cases h
    exact ⟨.inline v, by simp [Node.heldTerm, hkind, hv], by simp [resolve, htop]⟩
  · exact emits_throw _

omit hwalk in
theorem isTop_machineIdent {n : Node} {name : String} (hkind : n.kind = .ident name)
    (hplain : n.IsPlain t) (fallback : Value) :
    (Value.named (n.machineIdent name) fallback).isTop = false := by
  simp only [Node.IsPlain, hkind] at hplain
  rw [Value.isTop_named, Node.machineIdent]
  cases hident : n.ident? with
  | none => rfl
  | some i => exact hplain i hident

omit hwalk in
theorem ready_ident {id : NodeId} {n : Node} {name : String} (hn : t.node? id = some n)
    (hkind : n.kind = .ident name) (hplain : n.IsPlain t) :
    Ready t [id] []
      [.value (.named (n.machineIdent name) (n.info.value.getD .nil)) n.span] := by
  have htop := isTop_machineIdent hkind hplain (n.info.value.getD .nil)
  have hparts : Ready t n.kind.values [] [] := by
    rw [hkind]
    exact .nil t
  refine hparts.held hn (by rw [hkind]; rfl) (by simp [pops, popsAll, htop]) ?_
  intro stack rest xs h
  cases h
  exact ⟨_, by simp [Node.heldTerm, hkind]; rfl, by simp [resolve, htop]⟩

omit hwalk in
theorem emits_ident {id : NodeId} {n : Node} {name : String} (hn : t.node? id = some n)
    (hkind : n.kind = .ident name) (hplain : n.IsPlain t) :
    EmitsValue t id (ident n name : Lower σ Instr) := by
  refine (emits_identOf n name).bind ?_
  rintro i made ⟨rfl, rfl⟩
  exact emits_pure (ready_ident hn hkind hplain)

omit hwalk in
/-- A literal of several members is read by reading the members from the last to the first. -/
theorem ready_iterable {id : NodeId} {n : Node} {made operands : List Instr} {ty : Ty}
    (hn : t.node? id = some n) (hparts : Ready t n.kind.values made operands)
    (hkind : n.kind.isHeld = true)
    (hterm : ∀ xs, n.heldTerm t xs = some (.iterable ty xs)) :
    Ready t [id] made [.iterable ty operands n.span] := by
  refine hparts.held hn hkind rfl fun h => ⟨_, hterm _, ?_⟩
  simp [resolve, h]

theorem emits_tuple {id : NodeId} {n : Node} {exprs : List NodeId} (hn : t.node? id = some n)
    (hkind : n.kind = .tuple exprs ∨ n.kind = .array exprs)
    (hexprs : ∀ c ∈ exprs, t.Plain c) : EmitsValue t id (iterable t walk n exprs) := by
  refine (emits_tyOf n _).bind ?_
  rintro ty made ⟨rfl, hty⟩
  refine (emits_operands hwalk hexprs).bind fun rs made hrs => ?_
  refine emits_pure ?_
  rcases hkind with hkind | hkind
  · refine ready_iterable hn (by simpa [hkind, NodeKind.values] using hrs) (by rw [hkind]; rfl) ?_
    simp [Node.heldTerm, hkind, hty]
  · refine ready_iterable hn (by simpa [hkind, NodeKind.values] using hrs) (by rw [hkind]; rfl) ?_
    simp [Node.heldTerm, hkind, hty]

omit hwalk in
/-- An attribute of a struct is read as its expression. -/
theorem ready_structAttr {id expr : NodeId} {n : Node} {name : String} {made : List Instr}
    {r : Instr} (hn : t.node? id = some n) (hkind : n.kind = .structAttr name expr)
    (h : Ready t [expr] made [r]) : Ready t [id] made [r] := by
  have hparts : Ready t n.kind.values made [r] := by
    rw [hkind]
    exact h
  refine hparts.held hn (by rw [hkind]; rfl) (by simp [popsAll]) fun {stack rest xs} hread => ?_
  obtain ⟨x, rfl⟩ := List.length_eq_one_iff.mp (Instr.length_of_resolveReversed hread)
  refine ⟨x, by simp [Node.heldTerm, hkind], ?_⟩
  simpa [resolveReversed, Option.bind_eq_some_iff] using hread

omit hwalk in
theorem emits_attrExpr (t : Tree) (id : NodeId) :
    Emits (attrExpr t id : Lower σ NodeId) fun made expr => made = [] ∧
      (expr = id ∨ ∃ n name, t.node? id = some n ∧ n.kind = .structAttr name expr) := by
  refine (emits_nodeAt t id).bind ?_
  rintro n made ⟨rfl, hn⟩
  split
  · rename_i name expr hkind
    exact emits_pure ⟨rfl, Or.inr ⟨n, name, hn, hkind⟩⟩
  · exact emits_pure ⟨rfl, Or.inl rfl⟩

theorem emits_attrs {ids : List NodeId} (hids : ∀ id ∈ ids, t.Plain id) :
    Emits (attrs t walk ids) fun made rs => Ready t ids made rs := by
  induction ids with
  | nil => exact emits_pure (.nil t)
  | cons id ids ih =>
    obtain ⟨hfirst, hothers⟩ := List.forall_mem_cons.mp hids
    refine (emits_attrExpr t id).bind ?_
    rintro expr made ⟨rfl, hexpr⟩
    have hoperand : EmitsValue t id (operand t walk expr) := by
      rcases hexpr with rfl | ⟨n, name, hn, hkind⟩
      · exact emits_operand hwalk hfirst
      · obtain ⟨hn', -, hparts⟩ := hfirst
        cases hn.symm.trans hn'
        rw [hkind] at hparts
        refine (emits_operand hwalk (hparts expr List.mem_cons_self)).weaken fun made r hr => ?_
        exact ready_structAttr hn hkind hr
    refine hoperand.bind fun r made hr => ?_
    refine (ih hothers).bind fun rs made' hrs => ?_
    exact emits_pure (by simpa using hr.append hrs)

theorem emits_struct {id : NodeId} {n : Node} {ids : List NodeId} (hn : t.node? id = some n)
    (hkind : n.kind = .struct ids) (hids : ∀ c ∈ ids, t.Plain c) :
    EmitsValue t id (struct t walk n ids) := by
  refine (emits_tyOf n _).bind ?_
  rintro ty made ⟨rfl, hty⟩
  refine (emits_attrs hwalk hids).bind fun rs made hrs => ?_
  refine emits_pure ?_
  refine ready_iterable hn (by simpa [hkind, NodeKind.values] using hrs) (by rw [hkind]; rfl) ?_
  simp [Node.heldTerm, hkind, hty]

theorem emits_spread {id expr : NodeId} {n : Node} (hn : t.node? id = some n)
    (hkind : n.kind = .spread expr) (hexpr : t.Plain expr) :
    EmitsValue t id (spread t walk n expr) := by
  have hwrap : ∀ ty, (n.ty? <|> (t.node? expr).bind Node.ty?) = some ty →
      EmitsValue t id (do return .wrapped ty (← operand t walk expr) n.span) := by
    intro ty hty
    refine (emits_operand hwalk hexpr).bind fun r made hr => emits_pure ?_
    have hparts : Ready t n.kind.values made [r] := by
      rw [hkind]
      exact hr
    rw [List.append_nil]
    refine hparts.held hn (by rw [hkind]; rfl) (by simp [pops, popsAll])
      fun {stack rest xs} hread => ?_
    obtain ⟨x, rfl⟩ := List.length_eq_one_iff.mp (Instr.length_of_resolveReversed hread)
    have hresolve : resolve r stack = some (x, rest) := by
      simpa [resolveReversed, Option.bind_eq_some_iff] using hread
    exact ⟨.wrapped ty x, by simp [Node.heldTerm, hkind, hty], by simp [resolve, hresolve]⟩
  unfold spread
  split
  · rename_i ty hty
    exact hwrap ty (by simp [Node.ty?, hty])
  · rename_i hnone
    refine (emits_nodeAt t expr).bind ?_
    rintro m made ⟨rfl, hm⟩
    refine (emits_tyOf m _).bind ?_
    rintro ty made ⟨rfl, hty⟩
    refine hwrap ty ?_
    rw [hm, Option.bind_some, hty, Node.ty?, hnone]
    rfl

/-! ## The rules of what is computed -/

theorem emits_unary {id expr : NodeId} {n : Node} {op : Operator} (hn : t.node? id = some n)
    (hkind : n.kind = .unary op expr) (hexpr : t.Plain expr) :
    EmitsValue t id (unary t walk n op expr) := by
  refine (emits_operand hwalk hexpr).bind fun r made hr => emits_push_top ?_
  refine Ready.computed hn (by rw [hkind]; exact hr) (by rw [hkind]; rfl) rfl fun xs hxs => ?_
  obtain ⟨x, rfl⟩ := List.length_eq_one_iff.mp hxs
  exact ⟨.unary op x, by simp [Node.computedTerm, hkind], rfl⟩

theorem emits_binary {id left right : NodeId} {n : Node} {op : Operator}
    (hn : t.node? id = some n) (hkind : n.kind = .binary op left right)
    (hparts : ∀ c ∈ [left, right], t.Plain c) :
    EmitsValue t id (binary t walk n op left right) := by
  refine (emits_operand hwalk (hparts left (by simp))).bind fun l made hl => ?_
  refine (emits_operand hwalk (hparts right (by simp))).bind fun r made' hr => emits_push_top ?_
  rw [← List.append_assoc]
  refine Ready.computed hn (by rw [hkind]; exact hl.append hr) (by rw [hkind]; rfl) rfl
    fun xs hxs => ?_
  obtain ⟨x, y, rfl⟩ := List.length_eq_two.mp hxs
  exact ⟨.binary op x y, by simp [Node.computedTerm, hkind], rfl⟩

theorem emits_ternary {id cond ifTrue ifFalse : NodeId} {n : Node} (hn : t.node? id = some n)
    (hkind : n.kind = .ternary cond ifTrue ifFalse)
    (hparts : ∀ c ∈ [cond, ifTrue, ifFalse], t.Plain c) :
    EmitsValue t id (ternary t walk n cond ifTrue ifFalse) := by
  refine (emits_operand hwalk (hparts cond (by simp))).bind fun c made hc => ?_
  refine (emits_operand hwalk (hparts ifTrue (by simp))).bind fun a made' ha => ?_
  refine (emits_operand hwalk (hparts ifFalse (by simp))).bind fun b made'' hb => emits_push_top ?_
  rw [← List.append_assoc, ← List.append_assoc]
  refine Ready.computed hn (by rw [hkind]; exact (hc.append ha).append hb) (by rw [hkind]; rfl) rfl
    fun xs hxs => ?_
  obtain ⟨x, y, z, rfl⟩ := List.length_eq_three.mp hxs
  exact ⟨.ternary x y z, by simp [Node.computedTerm, hkind], rfl⟩

theorem emits_index {id expr position : NodeId} {n : Node} {nilSafe : Bool}
    (hn : t.node? id = some n) (hkind : n.kind = .index expr position nilSafe)
    (hparts : ∀ c ∈ [expr, position], t.Plain c) :
    EmitsValue t id (index t walk n expr position nilSafe) := by
  refine (emits_operand hwalk (hparts expr (by simp))).bind fun target made htarget => ?_
  refine (emits_operand hwalk (hparts position (by simp))).bind fun r made' hr => emits_push_top ?_
  rw [← List.append_assoc]
  refine Ready.computed hn (by rw [hkind]; exact htarget.append hr) (by rw [hkind]; rfl) rfl
    fun xs hxs => ?_
  obtain ⟨x, y, rfl⟩ := List.length_eq_two.mp hxs
  exact ⟨.index nilSafe x y, by simp [Node.computedTerm, hkind], rfl⟩

theorem emits_dot {id expr : NodeId} {n : Node} {name : String} {nilSafe : Bool}
    (hn : t.node? id = some n) (hkind : n.kind = .dot expr name nilSafe) (hexpr : t.Plain expr) :
    EmitsValue t id (dot t walk n expr name nilSafe) := by
  refine (emits_operand hwalk hexpr).bind fun target made htarget => ?_
  refine (emits_identOf n name).bind ?_
  rintro i made' ⟨rfl, rfl⟩
  refine emits_push_top ?_
  refine Ready.computed hn (by rw [hkind]; exact htarget) (by rw [hkind]; rfl) rfl fun xs hxs => ?_
  obtain ⟨x, rfl⟩ := List.length_eq_one_iff.mp hxs
  exact ⟨.attr nilSafe x (n.machineIdent name), by simp [Node.computedTerm, hkind], rfl⟩

/-- A cast whose value nobody knows is left to the machine. -/
theorem emits_cast {id expr : NodeId} {n : Node} (hn : t.node? id = some n)
    (hkind : n.kind = .cast expr) (hplain : n.IsPlain t) (hexpr : t.Plain expr) :
    EmitsValue t id (cast t walk n expr) := by
  refine (emits_operand hwalk hexpr).bind fun r made hr => ?_
  refine (emits_tyOf n _).bind ?_
  rintro ty made' ⟨rfl, hty⟩
  have hvalue : n.info.value = none := by simpa only [Node.IsPlain, hkind] using hplain
  rw [hvalue]
  refine emits_push_top ?_
  refine Ready.computed hn (by rw [hkind]; exact hr) (by rw [hkind]; rfl) rfl fun xs hxs => ?_
  obtain ⟨x, rfl⟩ := List.length_eq_one_iff.mp hxs
  exact ⟨.cast ty x, by simp [Node.computedTerm, hkind, hty], rfl⟩

theorem emits_call {id callee : NodeId} {args : List NodeId} {n : Node}
    (hn : t.node? id = some n) (hkind : n.kind = .call callee args) (hplain : n.IsPlain t)
    (hparts : ∀ c ∈ callee :: args, t.Plain c) : EmitsValue t id (call t walk n callee args) := by
  obtain ⟨hcallee, hargs⟩ := List.forall_mem_cons.mp hparts
  refine (emits_operand hwalk hcallee).bind fun f made hf => ?_
  refine (emits_operands hwalk hargs).bind fun rs made' hrs => emits_push_top ?_
  rw [← List.append_assoc]
  exact hf.call hn hkind hrs (by simpa only [Node.IsPlain, hkind] using hplain)

theorem emits_lambda {id block : NodeId} {n : Node} (hn : t.node? id = some n)
    (hkind : n.kind = .lambda block) : EmitsValue t id (lambda t walk n block) := by
  refine (emits_tyOf n _).bind ?_
  rintro ty made ⟨rfl, hty⟩
  split
  · rename_i signature hsignature
    have hbody : Emits (body t walk block) fun made inside =>
        made = [] ∧ t.LowersTo block inside := by
      intro s inside s' h
      obtain ⟨made, hout, rfl⟩ := emits_body t walk block s inside s' h
      exact ⟨[], hout, rfl, hwalk.body h⟩
    refine hbody.bind ?_
    rintro inside made ⟨rfl, hinside⟩
    have hready : Ready t [id] ([] ++ [.lambda signature inside n.span]) [top] := by
      refine .top_of_step (by simp [Tree.inline_iff hn, hkind, NodeKind.isHeld]) fun e w => ?_
      refine ⟨_, _, .function hn hkind (by rw [hty]; exact hsignature) hinside, fun stack => ?_⟩
      exact Engine.run_concat rfl rfl rfl
    exact emits_push_top hready
  · exact emits_throw _

/-! ## Whole expressions -/

theorem evaluating_rule [NameSupply σ] {id : NodeId} (hid : t.Plain id) :
    Emits (rule t walk id) fun made result => ∃ r, result = some r ∧ Ready t [id] made [r] := by
  have hgives : ∀ {m : Lower σ Instr}, EmitsValue t id m →
      Emits (expression m) fun made result => ∃ r, result = some r ∧ Ready t [id] made [r] :=
    fun hm => hm.bind fun r made hr => emits_pure ⟨r, rfl, by rwa [List.append_nil]⟩
  obtain ⟨hnode, hplain, hparts⟩ := hid
  refine (emits_nodeAt t id).bind ?_
  rintro n made ⟨rfl, hn⟩
  obtain rfl := Option.some.inj (hn.symm.trans hnode)
  cases hkind : n.kind with
  | literal => exact hgives (emits_literal hn hkind hplain)
  | ident name => exact hgives (emits_ident hn hkind hplain)
  | tuple exprs =>
    rw [hkind] at hparts
    exact hgives (emits_tuple hwalk hn (Or.inl hkind) hparts)
  | array exprs =>
    rw [hkind] at hparts
    exact hgives (emits_tuple hwalk hn (Or.inr hkind) hparts)
  | struct attrs =>
    rw [hkind] at hparts
    exact hgives (emits_struct hwalk hn hkind hparts)
  | structAttr name expr =>
    rw [hkind] at hparts
    refine (hwalk.value (hparts expr List.mem_cons_self)).weaken ?_
    rintro made result ⟨r, rfl, hr⟩
    exact ⟨r, rfl, ready_structAttr hn hkind hr⟩
  | spread expr =>
    rw [hkind] at hparts
    exact hgives (emits_spread hwalk hn hkind (hparts expr List.mem_cons_self))
  | unary op expr =>
    rw [hkind] at hparts
    exact hgives (emits_unary hwalk hn hkind (hparts expr List.mem_cons_self))
  | binary op left right =>
    rw [hkind] at hparts
    exact hgives (emits_binary hwalk hn hkind hparts)
  | ternary cond ifTrue ifFalse =>
    rw [hkind] at hparts
    exact hgives (emits_ternary hwalk hn hkind hparts)
  | index expr position nilSafe =>
    rw [hkind] at hparts
    exact hgives (emits_index hwalk hn hkind hparts)
  | dot expr name nilSafe =>
    rw [hkind] at hparts
    exact hgives (emits_dot hwalk hn hkind (hparts expr List.mem_cons_self))
  | cast expr =>
    rw [hkind] at hparts
    exact hgives (emits_cast hwalk hn hkind hplain (hparts expr List.mem_cons_self))
  | call callee args =>
    rw [hkind] at hparts
    exact hgives (emits_call hwalk hn hkind hplain hparts)
  | lambda block => exact hgives (emits_lambda hwalk hn hkind)
  | _ =>
    simp only [Node.IsPlain, hkind] at hplain

end Rules

theorem evaluating_within [NameSupply σ] (t : Tree) (steps : Nat) :
    Evaluating t (within t steps : Walk σ) := by
  have hbody : ∀ steps, ∀ {block made} {s s' : LowerState σ},
      body t (within t steps) block s = .ok made s' → t.LowersTo block made :=
    fun steps _ _ s s' h => ⟨σ, inferInstance, steps, s, s', h⟩
  induction steps with
  | zero => exact ⟨fun _ => emits_throw _, hbody 0⟩
  | succ steps ih => exact ⟨fun hid => evaluating_rule ih hid, hbody (steps + 1)⟩

/-- A plain expression is lowered correctly, whatever the operations mean. Running the instructions
from any stack and then reading the operand gives the value of the expression, with all that the
engine does in the order of the source, and leaves the stack as it was. -/
theorem value_evaluates [NameSupply σ] {t : Tree} {id : NodeId} {s s' : LowerState σ} {r : Instr}
    (hplain : t.Plain id) (h : value t id s = .ok r s') :
    ∃ made, s'.out.toList = s.out.toList ++ made ∧
      ∀ {ω : Type} (e : Engine ω) (w : ω), ∃ x w', t.Evaluates e [id] w [x] w' ∧
        ∀ stack, ∃ stack', e.run made (stack, w) = some (stack', w') ∧
          resolve r stack' = some (x, stack) := by
  obtain ⟨made, hout, hready⟩ := emits_operand (evaluating_within t (enough t)) hplain s r s' h
  refine ⟨made, hout, fun e w => ?_⟩
  obtain ⟨xs, w', waiting, hxs, hrun⟩ := hready.evaluates e w
  obtain ⟨x, rfl⟩ := List.length_eq_one_iff.mp (Instr.length_of_resolveReversed (hrun []).2)
  refine ⟨x, w', hxs, fun stack => ⟨waiting ++ stack, (hrun stack).1, ?_⟩⟩
  simpa [resolveReversed, Option.bind_eq_some_iff] using (hrun stack).2

/-- A pair in which both members have to be computed, the first from two results. -/
def pairTree : Tree :=
  ⟨#[node (.ident "a"), node (.ident "i"), node (.index 0 1 false), node (.ident "d"),
    node (.unary .negate 3), node (.binary .subtract 2 4), node (.ident "b"),
    node (.dot 6 "x" true),
    ⟨.tuple [5, 7], .none, none, ⟨some (.tuple [.int, .int]), none, none, none, none⟩⟩]⟩
where
  node (kind : NodeKind) : Node := ⟨kind, .none, none, .empty⟩

/-- The instructions of `pairTree`. -/
def pairCode : List Instr :=
  [.indexGet (.reference (.name "i") .none) false (.reference (.name "a") .none) .none,
    .unary .negate (.reference (.name "d") .none) .none,
    .binary .subtract top top .none,
    .attrGet (.name "x") true (.reference (.name "b") .none) .none]

theorem pairTree_plain : pairTree.Plain 8 := by
  have hone : ∀ {a}, pairTree.Plain a → ∀ c ∈ [a], pairTree.Plain c := by simp
  have htwo : ∀ {a b}, pairTree.Plain a → pairTree.Plain b → ∀ c ∈ [a, b], pairTree.Plain c := by
    simp +contextual
  have ha : pairTree.Plain 0 := .node rfl (fun i hi => nomatch hi) (fun c hc => nomatch hc)
  have hi : pairTree.Plain 1 := .node rfl (fun i hi => nomatch hi) (fun c hc => nomatch hc)
  have hd : pairTree.Plain 3 := .node rfl (fun i hi => nomatch hi) (fun c hc => nomatch hc)
  have hb : pairTree.Plain 6 := .node rfl (fun i hi => nomatch hi) (fun c hc => nomatch hc)
  have hindex : pairTree.Plain 2 := .node rfl trivial (htwo ha hi)
  have hnegated : pairTree.Plain 4 := .node rfl trivial (hone hd)
  have hfirst : pairTree.Plain 5 := .node rfl trivial (htwo hindex hnegated)
  have hsecond : pairTree.Plain 7 := .node rfl trivial (hone hb)
  exact .node rfl trivial (htwo hfirst hsecond)

theorem value_evaluates_pair :
    let r := Instr.iterable (.tuple [.int, .int]) [top, top] .none
    let s' : LowerState SequentialNames := ⟨.start, [], [], pairCode.toArray⟩
    pairTree.Plain 8 ∧ value pairTree 8 (.ofNames SequentialNames.start) = .ok r s' ∧
    ∃ made, s'.out.toList = made ∧
      ∃ x w', pairTree.Evaluates .symbolic [8] () [x] w' ∧
        ∀ stack, ∃ stack', Engine.symbolic.run made (stack, ()) = some (stack', w') ∧
          resolve r stack' = some (x, stack) := by
  intro r s'
  have hrun : value pairTree 8 (.ofNames SequentialNames.start) = .ok r s' := by rfl
  obtain ⟨made, hmade, hevaluates⟩ := value_evaluates pairTree_plain hrun
  exact ⟨pairTree_plain, hrun, made, hmade, hevaluates .symbolic ()⟩

end Lower

end BytecodeCompiler
