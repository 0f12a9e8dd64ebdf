import BytecodeCompiler.Proofs.Lower.Expressions

-- Calls, assignments and changes of collections take the operand that was lowered first before the
-- operand that was lowered last. The result stack hands results out the other way round, so every
-- operand gets its own value just if one of the two has no result on the stack.

namespace BytecodeCompiler

open Instr (resolve resolveReversed resolveAll pops popsAll)

/-! ## Operands in two groups -/

namespace NodeKind

/-- Whether the node becomes an instruction that takes its operands as they were lowered. -/
def takesInTurn : NodeKind → Bool
  | .call .. | .update .. | .collection .. => true
  | _ => false

/-- The operands that are lowered last and taken last. -/
def later : NodeKind → List NodeId
  | .call _ args => args
  | .update _ rhs => [rhs]
  | .collection _ _ value => [value]
  | _ => []

end NodeKind

/-- The name that is assigned to. -/
def Node.assignedName (n : Node) : Option Ident :=
  match n.kind with
  | .ident name => some (n.machineIdent name)
  | _ => none

namespace Tree

/-- The operands that are lowered first and taken first. -/
def earlier (t : Tree) : NodeKind → List NodeId
  | .call callee _ => [callee]
  | .update lhs _ => (t.kind? lhs).elim [lhs] (NodeKind.targetParts lhs)
  | .collection _ target _ => [target]
  | _ => []

/-- The values that the instruction has to get, in the order in which it takes them, from the values
of the operands. Where a name is assigned to, it gets the name. -/
def taken (t : Tree) (kind : NodeKind) (xs ys : List Term) : List Term :=
  match kind with
  | .call .. => xs ++ [.iterable (.array .any) ys]
  | .update lhs _ =>
    match (t.node? lhs).bind Node.assignedName with
    | some name => .inline (.reference name) :: ys
    | none => xs.reverse ++ ys
  | _ => xs.reverse ++ ys

/-- After the instructions before it, the last instruction takes the values of its own operands and
leaves the stack as it was, whatever the operations mean. -/
def TakesOwn (t : Tree) (kind : NodeKind) (before : List Instr) (last : Instr) : Prop :=
  ∀ {ω : Type} (e : Engine ω) (w : ω), ∃ xs w₁ ys w₂,
    t.Evaluates e (t.earlier kind) w xs w₁ ∧ t.Evaluates e kind.later w₁ ys w₂ ∧
      ∀ stack, ∃ stack', e.run before (stack, w) = some (stack', w₂) ∧
        resolveAll last.wire stack' = some (t.taken kind xs ys, stack)

/-- Of the operands that are taken first and those that are taken last, one group is held. -/
def InOrder (t : Tree) (kind : NodeKind) : Prop :=
  (∀ c ∈ t.earlier kind, t.Inline c) ∨ ∀ c ∈ kind.later, t.Inline c

end Tree

section Groups

variable {t : Tree} {kind : NodeKind} {made made' operands operands' : List Instr} {last : Instr}

/-- With numbered results, the value that is taken first would have to hold the result that came
last, which is one of the other operands'. -/
theorem inOrder_of_numbered {xs ys : List Term} {w₁ w₂ : Nat} {stack' middle : List Term}
    (h : Ready t (t.earlier kind) made operands)
    (hxs : t.Evaluates .numbered (t.earlier kind) 0 xs w₁)
    (hys : t.Evaluates .numbered kind.later w₁ ys w₂)
    (hrun : Engine.numbered.run (made ++ made') ([], 0) = some (stack', w₂))
    (hread : resolveReversed operands stack' = some (xs, middle)) : t.InOrder kind := by
  by_contra hnot
  obtain ⟨hearlier, hlater⟩ := not_or.mp hnot
  obtain ⟨popped, rfl, hlength, hnumbers⟩ := Instr.popped_of_resolveReversed operands hread
  obtain ⟨x, popped, rfl⟩ : ∃ x rest, popped = x :: rest := by
    refine List.exists_cons_of_ne_nil fun hnil => hearlier (h.inline.mp ?_)
    rw [← hlength, hnil, List.length_nil]
  rcases List.eq_nil_or_concat (made ++ made') with hnil | ⟨init, i, hlast⟩
  · rw [hnil] at hrun
    cases hrun
  · rw [hlast, List.concat_eq_append] at hrun
    obtain ⟨k, rest, hstack, hw⟩ := Engine.numbered_run_concat hrun
    have hk : k ∈ Term.numbersAll xs := by
      refine hnumbers x List.mem_cons_self k ?_
      rw [List.cons_append] at hstack
      rw [(List.cons.inj hstack).1]
      exact List.mem_cons_self
    have hold := (Tree.numbers_lt_of_evaluates hxs).2 k hk
    have hnew := Tree.lt_of_evaluates hys hlater
    omega

/-- If reading the operands is reading the first group and then the second, the operands get their
own values just if one group is held. -/
theorem takesOwn_iff (kind : NodeKind) (h : Ready t (t.earlier kind) made operands)
    (h' : Ready t kind.later made' operands')
    (hwire : ∀ {xs ys stack' stack}, xs.length = (t.earlier kind).length →
      (resolveAll last.wire stack' = some (t.taken kind xs ys, stack) ↔
        ∃ middle, resolveReversed operands stack' = some (xs, middle) ∧
          resolveReversed operands' middle = some (ys, stack))) :
    t.TakesOwn kind (made ++ made') last ↔ t.InOrder kind := by
  constructor
  · intro htakes
    obtain ⟨xs, w₁, ys, w₂, hxs, hys, hrun⟩ := htakes .numbered 0
    obtain ⟨stack', hmade, hread⟩ := hrun []
    obtain ⟨middle, hfirst, -⟩ := (hwire hxs.length_eq).mp hread
    exact inOrder_of_numbered h hxs hys hmade hfirst
  · intro horder ω e w
    obtain ⟨xs, w₁, ys, w₂, hxs, hys, hrun⟩ := h.inTurn h' horder e w
    refine ⟨xs, w₁, ys, w₂, hxs, hys, fun stack => ?_⟩
    obtain ⟨stack', middle, hmade, hread, hread'⟩ := hrun stack
    exact ⟨stack', hmade, (hwire hxs.length_eq).mpr ⟨middle, hread, hread'⟩⟩

/-- Reading the first group from the last to the first and then one more operand. -/
theorem reads_iff (operands : List Instr) (v : Instr) {xs ys stack' stack : List Term}
    (hlength : xs.length = operands.length) :
    resolveAll (operands.reverse ++ [v]) stack' = some (xs.reverse ++ ys, stack) ↔
      ∃ middle, resolveReversed operands stack' = some (xs, middle) ∧
        resolveReversed [v] middle = some (ys, stack) := by
  rw [Instr.resolveAll_append, Instr.resolveAll_reverse]
  cases hfirst : resolveReversed operands stack' with
  | none => simp
  | some read =>
    obtain ⟨xs', middle⟩ := read
    have hsame : xs'.reverse.length = xs.reverse.length := by
      rw [List.length_reverse, List.length_reverse, Instr.length_of_resolveReversed hfirst, hlength]
    cases hv : resolve v middle with
    | none => simp [resolveAll, resolveReversed, hv]
    | some read =>
      obtain ⟨y, rest⟩ := read
      simp only [resolveAll, resolveReversed, hv, Option.map_some, Option.bind_some,
        Option.bind_eq_bind, Option.some.injEq, Prod.mk.injEq, Option.pure_def]
      constructor
      · rintro ⟨heq, rfl⟩
        obtain ⟨hxs, rfl⟩ := List.append_inj heq hsame
        exact ⟨middle, ⟨List.reverse_inj.mp hxs, rfl⟩, by simp [hv]⟩
      · rintro ⟨middle', ⟨rfl, rfl⟩, hread⟩
        simp [hv] at hread
        simp [hread]

/-- Reading a callee and then the arguments, which travel as an array. -/
theorem reads_call_iff {f : Instr} {args : List Instr} {span : Span} {x : Term}
    {ys stack' stack : List Term} :
    resolveAll [f, .args args span] stack' = some ([x, .iterable (.array .any) ys], stack) ↔
      ∃ middle, resolveReversed [f] stack' = some ([x], middle) ∧
        resolveReversed args middle = some (ys, stack) := by
  cases hf : resolve f stack' with
  | none => simp [resolveAll, resolveReversed, hf]
  | some read =>
    obtain ⟨y, middle⟩ := read
    cases hargs : resolveReversed args middle with
    | none => simp [resolveAll, resolveReversed, resolve, Instr.args, hf, hargs]
    | some read => simp [resolveAll, resolveReversed, resolve, Instr.args, hf, hargs]; grind

end Groups

/-! ## The rules -/

namespace Lower

variable {σ : Type} {t : Tree} {walk : Walk σ}

/-- The step ends with an instruction whose operands get their own values just if they are in
order. -/
abbrev EmitsTaker {α : Type} (t : Tree) (kind : NodeKind) (m : Lower σ α) : Prop :=
  Emits m fun made _ => ∃ before last, made = before ++ [last] ∧
    (t.TakesOwn kind before last ↔ t.InOrder kind)

variable (hwalk : Evaluating t walk)

include hwalk

theorem emitsTaker_call (n : Node) {callee : NodeId} {args : List NodeId}
    (hcallee : t.Plain callee) (hargs : ∀ c ∈ args, t.Plain c) :
    EmitsTaker t (.call callee args) (call t walk n callee args) := by
  refine (emits_operand hwalk hcallee).bind fun f made hf => ?_
  refine (emits_operands hwalk hargs).bind fun rs made' hrs => ?_
  refine emits_push_top ⟨made ++ made', _, (List.append_assoc ..).symm, ?_⟩
  refine takesOwn_iff (.call callee args) hf hrs fun {xs ys _ _} hlength => ?_
  obtain ⟨x, rfl⟩ := List.length_eq_one_iff.mp hlength
  exact reads_call_iff

theorem emitsTaker_collection (n : Node) (op : CollectionOp) {target value : NodeId}
    (htarget : t.Plain target) (hvalue : t.Plain value) :
    EmitsTaker t (.collection op target value) (collection t walk n op target value) := by
  refine (emits_operand hwalk htarget).bind fun target made htarget => ?_
  refine (emits_operand hwalk hvalue).bind fun v made' hv => ?_
  refine emits_push ⟨made ++ made', _, (List.append_assoc ..).symm, ?_⟩
  exact takesOwn_iff (.collection op _ _) htarget hv (reads_iff [_] _)

omit hwalk in
/-- An assignment to anything but a name takes the parts of its target from the last to the first,
and then the value. -/
theorem takesOwn_update {lhs rhs : NodeId} {l : Node} {ids : List NodeId} {made made' : List Instr}
    {operands : List Instr} {v last : Instr} (hl : t.node? lhs = some l)
    (hname : l.assignedName = none) (hgroup : t.earlier (.update lhs rhs) = ids)
    (h : Ready t ids made operands) (hlength : operands.length = ids.length)
    (hv : Ready t [rhs] made' [v]) (hwire : last.wire = operands.reverse ++ [v]) :
    t.TakesOwn (.update lhs rhs) (made ++ made') last ↔ t.InOrder (.update lhs rhs) := by
  subst hgroup
  refine takesOwn_iff (.update lhs rhs) h hv fun {xs ys stack' stack} hxs => ?_
  have htaken : t.taken (.update lhs rhs) xs ys = xs.reverse ++ ys := by
    simp only [Tree.taken, hl, Option.bind_some, hname]
  rw [htaken, hwire]
  exact reads_iff operands v (hxs.trans hlength.symm)

omit hwalk in
/-- An assignment to a name is always in order. -/
theorem takesOwn_rename {lhs rhs : NodeId} {l : Node} {name : String} {made : List Instr}
    {v : Instr} {span : Span} (hl : t.node? lhs = some l) (hkind : l.kind = .ident name)
    (hplain : l.IsPlain t) (hv : Ready t [rhs] made [v]) :
    t.TakesOwn (.update lhs rhs) made (.mov (.reference (l.machineIdent name) l.span) v span) ↔
      t.InOrder (.update lhs rhs) := by
  have hgroup : t.earlier (.update lhs rhs) = [lhs] := by
    simp only [Tree.earlier, Tree.kind?, hl, Option.map_some, hkind, Option.elim_some,
      NodeKind.targetParts]
  have hinline : t.Inline lhs := by
    rw [Tree.inline_iff hl, hkind]
    exact ⟨rfl, List.forall_mem_nil _⟩
  have horder : t.InOrder (.update lhs rhs) := by
    refine Or.inl ?_
    rw [hgroup]
    simpa using hinline
  refine iff_of_true (fun e w => ?_) horder
  have hready := ready_ident hl hkind hplain
  obtain ⟨xs, w₁, ys, w₂, hxs, hys, hrun⟩ := hready.inTurn hv (Or.inl (by simpa using hinline)) e w
  refine ⟨xs, w₁, ys, w₂, by rwa [hgroup], hys, fun stack => ?_⟩
  obtain ⟨stack', middle, hmade, hread, hread'⟩ := hrun stack
  -- The name pops nothing, so the value is read from the whole stack.
  obtain ⟨popped, rfl, hlength, -⟩ := Instr.popped_of_resolveReversed _ hread
  rw [hready.inline.mpr (by simpa using hinline)] at hlength
  obtain rfl := List.length_eq_zero_iff.mp hlength
  obtain ⟨y, rfl⟩ := List.length_eq_one_iff.mp hys.length_eq
  have hvalue : resolve v middle = some (y, stack) := by
    simpa [resolveReversed, Option.bind_eq_some_iff] using hread'
  have htop := isTop_machineIdent hkind hplain .nil
  refine ⟨middle, hmade, ?_⟩
  simp [Instr.wire, Instr.reference, Value.reference, resolveAll, resolve, htop, hvalue, Tree.taken,
    hl, Node.assignedName, hkind]

theorem emitsTaker_update (n : Node) {lhs rhs : NodeId}
    (hearlier : ∀ c ∈ t.earlier (.update lhs rhs), t.Plain c) (hrhs : t.Plain rhs) :
    EmitsTaker t (.update lhs rhs) (update t walk n lhs rhs) := by
  refine (emits_nodeAt t lhs).bind ?_
  rintro l made ⟨rfl, hl⟩
  obtain ⟨kind, span, parent, info⟩ := l
  have hgroup : t.earlier (.update lhs rhs) = kind.targetParts lhs := by
    simp only [Tree.earlier, Tree.kind?, hl, Option.map_some, Option.elim_some]
  rw [hgroup] at hearlier
  cases kind with
  | index expr position nilSafe =>
    have hexpr := hearlier expr List.mem_cons_self
    refine (emits_operand hwalk hexpr).bind fun target made htarget => ?_
    have hposition := hearlier position (by simp [NodeKind.targetParts])
    refine (emits_operand hwalk hposition).bind fun i made' hi => ?_
    refine (emits_operand hwalk hrhs).bind fun v made'' hv => ?_
    refine emits_push ⟨made ++ made' ++ made'', .indexSet i target v n.span, by simp, ?_⟩
    exact takesOwn_update hl rfl hgroup (htarget.append hi) rfl hv rfl
  | dot expr name nilSafe =>
    have hexpr := hearlier expr List.mem_cons_self
    refine (emits_operand hwalk hexpr).bind fun target made htarget => ?_
    refine (emits_identOf _ name).bind ?_
    rintro i made' ⟨rfl, -⟩
    refine (emits_operand hwalk hrhs).bind fun v made'' hv => ?_
    refine emits_push ⟨made ++ made'', .attrSet nilSafe i target v n.span, by simp, ?_⟩
    exact takesOwn_update hl rfl hgroup htarget rfl hv rfl
  | ident name =>
    obtain ⟨hl', hplain, -⟩ := hearlier lhs List.mem_cons_self
    cases hl.symm.trans hl'
    refine (emits_identOf _ name).bind ?_
    rintro i made' ⟨rfl, rfl⟩
    refine (emits_operand hwalk hrhs).bind fun v made'' hv => ?_
    refine emits_push ⟨made'', _, by simp; rfl, ?_⟩
    exact takesOwn_rename hl rfl hplain hv
  | _ =>
    have hlhs := hearlier lhs List.mem_cons_self
    refine (emits_operand hwalk hlhs).bind fun target made htarget => ?_
    refine (emits_operand hwalk hrhs).bind fun v made'' hv => ?_
    refine emits_push ⟨made ++ made'', .mov target v n.span, by simp, ?_⟩
    exact takesOwn_update hl rfl hgroup htarget rfl hv rfl

end Lower

/-- A call, an assignment or a change of a collection ends with an instruction that takes its
operands in turn. Each operand gets the value of the expression that it was lowered from, whatever
the operations mean, just if the operands that are taken first or those that are taken last are
held: if both have results on the stack, they get each other's. -/
theorem takesOwn_iff_inOrder {σ : Type} [NameSupply σ] {t : Tree} {id : NodeId} {n : Node}
    {s s' : LowerState σ} {result : Option Instr} (hn : t.node? id = some n)
    (hkind : n.kind.takesInTurn = true)
    (hplain : ∀ c ∈ t.earlier n.kind ++ n.kind.later, t.Plain c)
    (h : Lower.node t id s = .ok result s') :
    ∃ before last, s'.out.toList = s.out.toList ++ before ++ [last] ∧
      (t.TakesOwn n.kind before last ↔ t.InOrder n.kind) := by
  obtain ⟨hearlier, hlater⟩ := List.forall_mem_append.mp hplain
  have hwalk := Lower.evaluating_within (σ := σ) t t.size
  have htaker : Lower.EmitsTaker t n.kind (Lower.node t id : Lower σ (Option Instr)) := by
    refine (Lower.emits_nodeAt t id).bind ?_
    rintro m made ⟨rfl, hm⟩
    obtain rfl := Option.some.inj (hm.symm.trans hn)
    obtain ⟨kind, span, parent, info⟩ := m
    cases kind with
    | call callee args =>
      have hcallee := hearlier callee List.mem_cons_self
      have hargs : ∀ c ∈ args, t.Plain c := hlater
      refine (Lower.emitsTaker_call hwalk _ hcallee hargs).bind fun _ made hmade => ?_
      exact Lower.emits_pure (by simpa using hmade)
    | update lhs rhs =>
      have hrhs := hlater rhs List.mem_cons_self
      refine (Lower.emitsTaker_update hwalk _ hearlier hrhs).bind fun _ made hmade => ?_
      exact Lower.emits_pure (by simpa using hmade)
    | collection op target value =>
      have htarget := hearlier target List.mem_cons_self
      have hvalue := hlater value List.mem_cons_self
      refine (Lower.emitsTaker_collection hwalk _ op htarget hvalue).bind fun _ made hmade => ?_
      exact Lower.emits_pure (by simpa using hmade)
    | _ => cases hkind
  obtain ⟨made, hout, before, last, rfl, hiff⟩ := htaker s result s' h
  exact ⟨before, last, by rw [hout, List.append_assoc], hiff⟩

/-- The call of what a call gives, with what another call gives: `f()(g())`. -/
def Tree.callOfCall : Tree :=
  ⟨#[⟨.ident "f", .none, some 1, .empty⟩, ⟨.call 0 [], .none, some 4, .empty⟩,
    ⟨.ident "g", .none, some 3, .empty⟩, ⟨.call 2 [], .none, some 4, .empty⟩,
    ⟨.call 1 [3], .none, none, .empty⟩]⟩

/-- The call of a name without arguments. -/
def Instr.bareCall (name : String) : Instr :=
  .call (.reference (.name name) .none) (.args [] .none) .none

/-- What the call of a name without arguments gives. -/
def Term.bareCall (name : String) : Term :=
  .call (.inline (.reference (.name name))) (.iterable (.array .any) [])

theorem Tree.callOfCall_plain : ∀ c ∈ [1, 3], Tree.callOfCall.Plain c := by
  have hnone : ∀ c ∈ ([] : List NodeId), Tree.callOfCall.Plain c := fun c hc => nomatch hc
  have hone : ∀ {a}, Tree.callOfCall.Plain a → ∀ c ∈ [a], Tree.callOfCall.Plain c := by simp
  have hf : Tree.callOfCall.Plain 0 := .node rfl (fun i hi => nomatch hi) hnone
  have hg : Tree.callOfCall.Plain 2 := .node rfl (fun i hi => nomatch hi) hnone
  refine List.forall_mem_cons.mpr ⟨?_, hone ?_⟩
  · exact .node rfl (Or.inr fun c hc => nomatch hc) (hone hf)
  · exact .node rfl (Or.inr fun c hc => nomatch hc) (hone hg)

theorem takesOwn_iff_inOrder_callOfCall :
    let s' : LowerState SequentialNames := ⟨.start, [], [],
      #[.bareCall "f", .bareCall "g", .call Lower.top (.args [Lower.top] .none) .none]⟩
    (∀ c ∈ [1, 3], Tree.callOfCall.Plain c) ∧
    Lower.node .callOfCall 4 (.ofNames SequentialNames.start) = .ok (some Lower.top) s' ∧
    ∃ before last, s'.out.toList = before ++ [last] ∧
      (Tree.callOfCall.TakesOwn (.call 1 [3]) before last ↔
        Tree.callOfCall.InOrder (.call 1 [3])) := by
  intro s'
  have hrun : Lower.node .callOfCall 4 (.ofNames SequentialNames.start) =
      .ok (some Lower.top) s' := by rfl
  have hn : Tree.callOfCall.node? 4 = some ⟨.call 1 [3], .none, none, .empty⟩ := rfl
  exact ⟨Tree.callOfCall_plain, hrun, takesOwn_iff_inOrder hn rfl Tree.callOfCall_plain hrun⟩

/-- In `f()(g())`, the call takes what `g` gives for the callee, and what `f` gives for the
argument. -/
theorem call_takes_swapped :
    let s' : LowerState SequentialNames := ⟨.start, [], [],
      #[.bareCall "f", .bareCall "g", .call Lower.top (.args [Lower.top] .none) .none]⟩
    Lower.node .callOfCall 4 (.ofNames SequentialNames.start) = .ok (some Lower.top) s' ∧
    Tree.callOfCall.Evaluates .symbolic [1] () [.bareCall "f"] () ∧
    Tree.callOfCall.Evaluates .symbolic [3] () [.bareCall "g"] () ∧
    ∃ stack, Engine.symbolic.run [.bareCall "f", .bareCall "g"] ([], ()) = some (stack, ()) ∧
      resolveAll [Lower.top, .args [Lower.top] .none] stack =
        some ([.bareCall "g", .iterable (.array .any) [.bareCall "f"]], []) := by
  intro s'
  refine ⟨rfl, ?_, ?_, [.bareCall "g", .bareCall "f"], rfl, rfl⟩
  · have hcall : Tree.callOfCall.Evaluates .symbolic [1] ()
        [(Engine.symbolic.compute () (.bareCall "f")).1] () :=
      .computed rfl (.held rfl .nil rfl) rfl
    exact hcall
  · have hcall : Tree.callOfCall.Evaluates .symbolic [3] ()
        [(Engine.symbolic.compute () (.bareCall "g")).1] () :=
      .computed rfl (.held rfl .nil rfl) rfl
    exact hcall

end BytecodeCompiler
