import BytecodeCompiler.Proofs.Lower.Scratch

-- Loops over iterables and shared expressions while their scratch registers are live. A round of
-- such a loop writes them once, to step the index, when its body is calm. A body that holds another
-- such loop, or uses a shared expression for the first time, writes them again, since all of these
-- have the same two registers.

namespace BytecodeCompiler

open Instr (movesInto movesIntoAll)

/-- The declaration binds a name that is no scratch register. -/
def Tree.DeclaresPlainly (t : Tree) (id : NodeId) : Prop :=
  ∃ n, t.node? id = some n ∧
    ∀ name ∈ n.kind.resolvedName, (Value.reference (n.machineIdent name)).isScratch = false

/-- The declaration takes an element of a shared expression. -/
def Tree.TakesElement (t : Tree) (id shared : NodeId) (element : Nat) : Prop :=
  ∃ n isPub isConst name, t.node? id = some n ∧ n.kind = .set isPub isConst name shared element

namespace Lower

variable {σ : Type} {rs : List Register} {t : Tree} {done : List NodeId} {walk : Walk σ}

/-! ## The code of a loop -/

/-- The instruction of a loop that runs `before` once and `round` in every round. -/
def loopBlock (labels : LoopLabels) (span : Span) (before round : List Instr) : Instr :=
  .block (before ++ .label labels.top span ::
    (round ++ [.jump labels.top span, .label labels.finish span])) span

theorem movesInto_loopBlock (labels : LoopLabels) (span : Span) (before round : List Instr) :
    movesInto rs (loopBlock labels span before round) =
      movesIntoAll rs before ++ movesIntoAll rs round := by
  simp [loopBlock, movesInto, movesIntoAll, Instr.movesIntoAll_append]

/-- A loop is lowered to this, given what is good of the code that runs first and of the code that
starts every round. -/
def LoopCode (rs : List Register) (t : Tree) (done : List NodeId) (span : Span)
    (sets conds : List NodeId) (block : NodeId)
    (first : List NodeId → List Instr → List NodeId → Prop)
    (every : LoopLabels → List Instr → Prop) (computed : List NodeId) (i : Instr)
    (computed' : List NodeId) : Prop :=
  ∃ labels before declared stepped inside afterFirst afterSets,
    i = loopBlock labels span (before ++ declared) (stepped ++ inside) ∧
      first computed before afterFirst ∧ Settled rs t done sets afterFirst declared afterSets ∧
      every labels stepped ∧ Settled rs t done (conds ++ [block]) afterSets inside computed'

section Loops

variable (hwalk : ∀ c, Settles rs t done [c] (walk c) fun _ => True)

include hwalk

theorem proceeds_loop [NameSupply σ] {id : NodeId} {n : Node} {start : Lower σ Unit}
    {sets conds : List NodeId} {block : NodeId} {each : LoopLabels → Lower σ Unit}
    {first : List NodeId → List Instr → List NodeId → Prop}
    {every : LoopLabels → List Instr → Prop}
    (hstart : Proceeds done start fun computed made computed' _ => first computed made computed')
    (heach : ∀ labels, Proceeds done (each labels) fun computed made computed' _ =>
      computed' = computed ∧ every labels made) :
    Proceeds done (loop t walk id n start sets each conds block) fun computed made computed' _ =>
      ∃ i, made = [i] ∧
        LoopCode rs t done n.span sets conds block first every computed i computed' := by
  refine silent_fresh.bind fun top _ => ?_
  refine silent_fresh.bind fun finish _ => ?_
  refine (silent_noteLoop id finish).bind fun _ _ => ?_
  refine Proceeds.bind (proceeds_inBlock (?_ : Proceeds done _ fun computed inside computed' _ =>
    LoopCode rs t done n.span sets conds block first every computed (.block inside n.span)
      computed')) ?_
  · refine hstart.bind fun computed _ before afterFirst hbefore => ?_
    refine Proceeds.bind (settles_all hwalk sets) fun _ _ declared afterSets hdeclared => ?_
    refine proceeds_push_bind ?_
    refine (heach ⟨top, finish⟩).bind fun _ _ stepped afterStep hstepped => ?_
    refine Proceeds.bind (settles_guards hwalk n.span false finish conds)
      fun _ _ tests afterTests htests => ?_
    refine Proceeds.bind (hwalk block) fun _ _ inside computed' hinside => ?_
    refine proceeds_push_bind (proceeds_push ?_)
    -- Each part starts with what the part before it has computed.
    rintro _ rfl rfl rfl rfl rfl
    obtain ⟨rfl, hstepped⟩ := hstepped
    refine ⟨⟨top, finish⟩, before, declared, stepped, tests ++ inside, _, _, ?_, hbefore,
      hdeclared.1, hstepped, htests.1.append hinside.1⟩
    simp [loopBlock]
  · rintro computed inside made computed' ⟨rfl, hinside⟩
    refine proceeds_push ?_
    rintro _ rfl
    exact ⟨_, rfl, hinside⟩

theorem settles_forIf [NameSupply σ] (id : NodeId) (n : Node) (sets : Option NodeId)
    (conds : List NodeId) (block : NodeId) :
    Settles rs t done (sets.toList ++ conds ++ [block]) (forIf t walk id n sets conds block)
      fun _ => True := by
  have hnothing : Proceeds done (pure () : Lower σ Unit) fun computed made computed' _ =>
      computed' = computed ∧ made = [] := proceeds_pure fun _ => ⟨rfl, rfl⟩
  refine (proceeds_loop hwalk hnothing fun _ => hnothing).weaken ?_
  rintro computed _ computed' - ⟨_, rfl, labels, _, declared, _, inside, _, afterSets, rfl,
    ⟨rfl, rfl⟩, hdeclared, rfl, hinside⟩
  rw [List.append_assoc]
  refine ⟨(hdeclared.append hinside).congr ?_, trivial⟩
  simp [movesIntoAll, movesInto_loopBlock, Instr.movesIntoAll_append]

end Loops

/-! ## Loops over iterables -/

/-- The move that steps the index of a loop. -/
def stepIndex (span : Span) : Instr := .mov (.register .ri span) top span

/-- What a loop over an iterable does in each round before its body. -/
def eachCode (span : Span) (key value : Option Instr) (finish : Ident) : List Instr :=
  [.length (.register .ra span) span, .binary .less (.register .ri span) top span,
    .compareJump top (.value (.bool false) span) finish span] ++
  (value.toList.flatMap fun target =>
    [.indexGet (.register .ri span) true (.register .ra span) span,
      .mov target top span]) ++
  (key.toList.map fun target => .mov target (.register .ri span) span) ++
  [.binary .add (.register .ri span) (.value (.int 1) span) span,
    stepIndex span]

theorem proceeds_eachElement (span : Span) (key value : Option Instr) (labels : LoopLabels) :
    Proceeds done (eachElement span key value labels : Lower σ Unit)
      fun computed made computed' _ =>
        computed' = computed ∧ made = eachCode span key value labels.finish := by
  intro s a s' hdone h
  rcases key with _ | index <;> rcases value with _ | target
  all_goals
    cases h
    exact ⟨hdone, _, by simp [eachCode, stepIndex], rfl, rfl⟩

/-- The registers of a loop over an iterable. -/
abbrev loopRegisters : List Register := [.ra, .ri]

theorem movesInto_stepIndex (span : Span) :
    movesIntoAll loopRegisters [.binary .add (.register .ri span) (.value (.int 1) span) span,
      stepIndex span] = [stepIndex span] := by
  have hri : Register.ri ∈ loopRegisters := by decide
  simp [movesIntoAll, movesInto, stepIndex, Instr.refersTo_register hri]

/-- Before its body, a round only steps the index if it binds names that are no scratch register. -/
theorem movesIntoAll_eachCode {span : Span} {key value : Option Instr} {finish : Ident}
    (hkey : ∀ target ∈ key, target.refersTo loopRegisters = false)
    (hvalue : ∀ target ∈ value, target.refersTo loopRegisters = false) :
    movesIntoAll loopRegisters (eachCode span key value finish) = [stepIndex span] := by
  have hbound : movesIntoAll loopRegisters (value.toList.flatMap fun target =>
      [.indexGet (.register .ri span) true (.register .ra span) span,
        .mov target top span]) = [] := by
    cases value with
    | none => rfl
    | some target => simp [movesIntoAll, movesInto, hvalue target rfl]
  have hindex : movesIntoAll loopRegisters
      (key.toList.map fun target => .mov target (.register .ri span) span) = [] := by
    cases key with
    | none => rfl
    | some target => simp [movesIntoAll, movesInto, hkey target rfl]
  rw [eachCode, Instr.movesIntoAll_append, Instr.movesIntoAll_append, Instr.movesIntoAll_append,
    hbound, hindex, movesInto_stepIndex]
  rfl

/-- A round steps the index, whatever it binds. -/
theorem stepIndex_mem_eachCode (span : Span) (key value : Option Instr) (finish : Ident) :
    stepIndex span ∈ movesIntoAll loopRegisters (eachCode span key value finish) := by
  rw [eachCode, Instr.movesIntoAll_append, movesInto_stepIndex]
  exact List.mem_append_right _ List.mem_cons_self

theorem silent_loopTarget (hrs : ∀ r ∈ rs, r = .ra ∨ r = .ri) (id : NodeId) :
    Silent done (loopTarget t id : Lower σ Instr) fun target =>
      t.DeclaresPlainly id → target.refersTo rs = false := by
  refine (silent_nodeAt t id).bind fun n hn => ?_
  cases hkind : n.kind with
  | set isPub isConst name expr element =>
    refine (silent_identOf n name).bind fun i hi => silent_pure ?_
    rintro ⟨n', hn', hplain⟩
    cases hn.symm.trans hn'
    rw [hi]
    exact Instr.refersTo_of_not_isScratch hrs (hplain name (by rw [hkind]; rfl)) n.span
  | _ => exact proceeds_throw _

theorem silent_loopTarget? (hrs : ∀ r ∈ rs, r = .ra ∨ r = .ri) (id : Option NodeId) :
    Silent done (loopTarget? t id : Lower σ (Option Instr)) fun found =>
      (∀ c ∈ id, t.DeclaresPlainly c) → ∀ target ∈ found, target.refersTo rs = false := by
  cases id with
  | none => exact silent_pure fun _ _ htarget => nomatch htarget
  | some id =>
    refine (silent_loopTarget hrs id).bind fun target htarget => silent_pure ?_
    intro hplain target' hsame
    cases hsame
    exact htarget (hplain id rfl)

/-- A loop over an iterable sets its registers first. A round then binds names, steps the index and
runs the body. Before the body, only what the head of the loop reaches is computed. -/
theorem proceeds_forIn [NameSupply σ] (hrs : ∀ r ∈ rs, r = .ra ∨ r = .ri) (hra : .ra ∈ rs)
    (hwalk : ∀ c, Settles rs t done [c] (walk c) fun _ => True) (id : NodeId) (n : Node)
    (key value : Option NodeId) (expr block : NodeId) :
    Proceeds done (forIn t walk id n key value expr block) fun computed made computed' _ =>
      ∃ labels before index element inside afterHead,
        made = [loopBlock labels n.span before
          (eachCode n.span index element labels.finish ++ inside)] ∧
        movesIntoAll rs before ≠ [] ∧
        ((∀ c ∈ key, t.DeclaresPlainly c) → ∀ target ∈ index, target.refersTo rs = false) ∧
        ((∀ c ∈ value, t.DeclaresPlainly c) → ∀ target ∈ element, target.refersTo rs = false) ∧
        (∀ c ∉ computed, (∀ h ∈ expr :: (key.toList ++ value.toList), ¬ t.Reaches h c) →
          c ∉ afterHead) ∧
        Settled rs t done [block] afterHead inside computed' := by
  refine (silent_loopTarget? hrs key).bind fun index hindex => ?_
  refine (silent_loopTarget? hrs value).bind fun element helement => ?_
  have hstart : Proceeds done (do
      let v ← operand t walk expr
      push (.mov (.register .ra n.span) v n.span)
      push (.mov (.register .ri n.span) (.value (.int 0) n.span) n.span) : Lower σ Unit)
      fun computed made computed' _ => movesIntoAll rs made ≠ [] ∧
        ∀ c ∉ computed, ¬ t.Reaches expr c → c ∉ computed' := by
    refine Proceeds.bind (settles_operand hwalk expr) fun computed v made computed' hmade => ?_
    refine proceeds_push_bind (proceeds_push ?_)
    rintro _ rfl
    refine ⟨?_, fun c hc hclear => hmade.1.kept c hc (List.forall_mem_singleton.mpr hclear)⟩
    simp [Instr.movesIntoAll_append, movesIntoAll, movesInto, Instr.refersTo_register hra]
  refine (proceeds_loop hwalk hstart (proceeds_eachElement n.span index element)).weaken ?_
  rintro computed - computed' - ⟨i, rfl, labels, before, declared, -, inside, afterFirst, afterSets,
    rfl, ⟨hbefore, hexpr⟩, hdeclared, rfl, hinside⟩
  refine ⟨labels, before ++ declared, index, element, inside, afterSets, rfl, ?_, hindex, helement,
    fun c hc hclear => ?_, hinside⟩
  · rw [Instr.movesIntoAll_append]
    exact List.append_ne_nil_of_left_ne_nil hbefore _
  · obtain ⟨hexprClear, hsetsClear⟩ := List.forall_mem_cons.mp hclear
    exact hdeclared.kept c (hexpr c hc hexprClear) hsetsClear

/-- A loop over an iterable moves into its registers, so it is not calm. -/
theorem settles_forIn [NameSupply σ] (hrs : ∀ r ∈ rs, r = .ra ∨ r = .ri) (hra : .ra ∈ rs)
    (hwalk : ∀ c, Settles rs t done [c] (walk c) fun _ => True) {id : NodeId} {n : Node}
    {key value : Option NodeId} {expr block : NodeId} (hn : t.node? id = some n)
    (hkind : n.kind = .forIn key value expr block) :
    Settles rs t done [id] (forIn t walk id n key value expr block) fun _ => True := by
  refine (proceeds_forIn hrs hra hwalk id n key value expr block).weaken ?_
  rintro computed - computed' - ⟨labels, before, index, element, inside, afterHead, rfl, hbefore, -,
    -, hhead, hinside⟩
  have hmoved : movesIntoAll rs [loopBlock labels n.span before
      (eachCode n.span index element labels.finish ++ inside)] ≠ [] := by
    simp only [movesIntoAll, movesInto_loopBlock, List.append_nil]
    exact List.append_ne_nil_of_left_ne_nil hbefore _
  refine ⟨⟨fun hcalm => ?_, fun _ => hmoved, fun _ _ _ _ _ => hmoved,
    fun _ _ _ hnone => absurd hnone hmoved, fun c hc hid => ?_⟩, trivial⟩
  · have hkeeps := ((hcalm id List.mem_cons_self).inv hn).1
    rw [hkind] at hkeeps
    exact hkeeps.elim
  · have hchild : ∀ p ∈ n.kind.children, ¬ t.Reaches p c := fun p hp hreaches =>
      hid id List.mem_cons_self ((Tree.reaches_child hn hp).trans hreaches)
    simp only [hkind, NodeKind.children, List.mem_append, List.mem_cons] at hchild
    refine hinside.kept c (hhead c hc fun h hh => hchild h ?_) fun p hp => hchild p ?_
    · grind
    · grind

/-! ## Every rule -/

theorem settles_breakLoop (id : NodeId) (n : Node) :
    Settles rs t done [] (breakLoop t id n : Lower σ Unit) fun _ => True := by
  unfold breakLoop
  split
  · exact proceeds_throw _
  · exact proceeds_throw _
  · refine silent_get.bind fun s _ => ?_
    split
    · exact settles_push_still rfl
    · exact proceeds_throw _

theorem settles_expression {parts : List NodeId} {rule : Lower σ Instr}
    (h : Settles rs t done parts rule fun _ => True) :
    Settles rs t done parts (expression rule) fun _ => True :=
  h.bind_left fun _ _ => settles_pure trivial

theorem settles_statement {parts : List NodeId} {rule : Lower σ Unit}
    (h : Settles rs t done parts rule fun _ => True) :
    Settles rs t done parts (statement rule) fun _ => True :=
  h.bind_left fun _ _ => settles_pure trivial

theorem settles_rule [NameSupply σ] (hrs : ∀ r ∈ rs, r = .ra ∨ r = .ri) (hra : .ra ∈ rs)
    (hwalk : ∀ c, Settles rs t done [c] (walk c) fun _ => True) (id : NodeId) :
    Settles rs t done [id] (rule t walk id) fun _ => True := by
  refine (silent_nodeAt t id).bind fun n hn => ?_
  have hnode : ∀ {kind : NodeKind} {m : Lower σ (Option Instr)}, n.kind = kind →
      kind.fillsScratch = false → Settles rs t done (t.inner kind) m (fun _ => True) →
      Settles rs t done [id] m fun _ => True := by
    rintro kind m rfl hother h
    exact h.node hn hother
  cases hkind : n.kind with
  | file _ nodes =>
    simp only [file, hkind]
    exact hnode hkind rfl (settles_statement (settles_all hwalk nodes))
  | block nodes => exact hnode hkind rfl (settles_statement (settles_block hwalk hn hkind))
  | literal => exact hnode hkind rfl (settles_expression (settles_literal n))
  | ident name => exact hnode hkind rfl (settles_expression (settles_ident n name))
  | lambda body => exact settles_expression (settles_lambda hwalk hn hkind)
  | func isPub name function =>
    exact hnode hkind rfl (settles_statement (settles_func hwalk n isPub name function))
  | tuple exprs | array exprs =>
    exact hnode hkind rfl (settles_expression (settles_iterable hwalk n exprs))
  | struct attrs => exact hnode hkind rfl (settles_expression (settles_struct hwalk n attrs))
  | structAttr _ expr => exact hnode hkind rfl (hwalk expr)
  | ret expr => exact hnode hkind rfl (settles_statement (settles_ret hwalk n expr))
  | index expr position nilSafe =>
    exact hnode hkind rfl (settles_expression (settles_index hwalk n expr position nilSafe))
  | call callee args =>
    exact hnode hkind rfl (settles_expression (settles_call hwalk n callee args))
  | dot expr name nilSafe =>
    exact hnode hkind rfl (settles_expression (settles_dot hwalk n expr name nilSafe))
  | spread expr => exact hnode hkind rfl (settles_expression (settles_spread hwalk n expr))
  | sets group => exact hnode hkind rfl (settles_statement (settles_all hwalk group))
  | set isPub isConst name expr element =>
    exact hnode hkind rfl
      (settles_statement (settles_set hwalk hra n isPub isConst name expr element))
  | shared expr flag => exact settles_expression (settles_sharedWhole hwalk hra hn hkind)
  | update lhs rhs => exact settles_statement (settles_update hwalk hrs hn hkind)
  | typeAlias isPub name => exact hnode hkind rfl (settles_statement (settles_typeAlias n _ name))
  | cast expr => exact hnode hkind rfl (settles_expression (settles_cast hwalk n expr))
  | use path resolved imports mode =>
    exact hnode hkind rfl (settles_statement (settles_use n resolved imports mode))
  | ifChain conds body elseIfs elseBlock =>
    have hchain := settles_ifChain hwalk hn hkind
    rw [hkind] at hchain
    exact hnode hkind rfl (settles_statement hchain)
  | ternary cond ifTrue ifFalse =>
    exact hnode hkind rfl (settles_expression (settles_ternary hwalk n cond ifTrue ifFalse))
  | forIf sets conds body =>
    exact hnode hkind rfl (settles_statement (settles_forIf hwalk id n sets conds body))
  | forIn key value expr body => exact settles_statement (settles_forIn hrs hra hwalk hn hkind)
  | breakLoop => exact hnode hkind rfl (settles_statement (settles_breakLoop id n))
  | collection op target value =>
    exact hnode hkind rfl (settles_statement (settles_collection hwalk n op target value))
  | binary op left right =>
    exact hnode hkind rfl (settles_expression (settles_binary hwalk n op left right))
  | unary op expr => exact hnode hkind rfl (settles_expression (settles_unary hwalk n op expr))
  | exprStmt expr => exact hnode hkind rfl (settles_statement (settles_all hwalk [expr]))

/-- Lowering any node leaves the registers alone if the node is calm, and moves into them if it
holds a loop over an iterable. -/
theorem settles_within [NameSupply σ] (hrs : ∀ r ∈ rs, r = .ra ∨ r = .ri) (hra : .ra ∈ rs)
    (steps : Nat) (id : NodeId) :
    Settles rs t done [id] (within t steps id : Lower σ (Option Instr)) fun _ => True := by
  induction steps generalizing id with
  | zero => exact proceeds_throw _
  | succ steps ih => exact settles_rule hrs hra ih id

/-! ## Rounds of a loop -/

theorem within_forIn [NameSupply σ] {id : NodeId} {n : Node} {key value : Option NodeId}
    {expr block : NodeId} (hn : t.node? id = some n)
    (hkind : n.kind = .forIn key value expr block) (steps : Nat) :
    (within t (steps + 1) id : Lower σ (Option Instr)) =
      statement (forIn t (within t steps) id n key value expr block) := by
  show rule t (within t steps) id = _
  simp only [rule, nodeAt, hn, pure_bind, hkind]

/-- What a round of a loop over an iterable moves into the registers of the loop. -/
theorem round_of_forIn [NameSupply σ] {id : NodeId} {n : Node} {key value : Option NodeId}
    {expr block : NodeId} {s s' : LowerState σ} {r : Option Instr} (hn : t.node? id = some n)
    (hkind : n.kind = .forIn key value expr block) (h : node t id s = .ok r s') :
    ∃ labels before round, s'.out.toList = s.out.toList ++ [loopBlock labels n.span before round] ∧
      ((∀ c ∈ key, t.DeclaresPlainly c) → (∀ c ∈ value, t.DeclaresPlainly c) →
        t.Calm s.processed block → movesIntoAll loopRegisters round = [stepIndex n.span]) ∧
      (t.Stirs s.processed (expr :: (key.toList ++ value.toList)) [block] →
        movesIntoAll loopRegisters round ≠ [stepIndex n.span]) := by
  rw [node, enough, within_forIn hn hkind] at h
  obtain ⟨_, s₁, hloop, hnone⟩ := bind_eq_ok h
  cases hnone
  have hwalk : ∀ c, Settles loopRegisters t s.processed [c] (within t t.size c : Lower σ _)
      fun _ => True := settles_within (by simp) (by simp) t.size
  obtain ⟨-, _, hout, labels, before, index, element, inside, afterHead, rfl, -, hindex, helement,
    hhead, hinside⟩ := proceeds_forIn (by simp) (by simp) hwalk id n key value expr block s _ s'
      (List.Subset.refl _) hloop
  refine ⟨labels, before, _, hout, ?_, ?_⟩
  · intro hkey hvalue hcalm
    have hbody := hinside.calm (List.forall_mem_singleton.mpr hcalm)
    rw [Instr.movesIntoAll_append, movesIntoAll_eachCode (hindex hkey) (helement hvalue), hbody]
    rfl
  · intro hstirs honly
    have hbody := hinside.stirred hhead hstirs
    have hstep := List.length_pos_of_mem
      (stepIndex_mem_eachCode n.span index element labels.finish)
    rw [Instr.movesIntoAll_append] at honly
    have hlength := congrArg List.length honly
    rw [List.length_append, List.length_singleton] at hlength
    have hpositive := List.length_pos_iff.mpr hbody
    omega

/-! ## Elements of a shared expression -/

/-- Reading an element of a shared expression. -/
def elementGet (span : Span) (element : Nat) : Instr :=
  .indexGet (.value (.int (Int64.ofNat element)) span) true (.register .ra span) span

theorem rule_set_shared [NameSupply σ] {id shared expr : NodeId} {n e : Node} {isPub isConst : Bool}
    {name : String} {element : Nat} {flag : Bool} (hn : t.node? id = some n)
    (hkind : n.kind = .set isPub isConst name shared element) (he : t.node? shared = some e)
    (hshared : e.kind = .shared expr flag) :
    rule t walk id = (do
      let whole ← sharedWhole t walk shared e expr flag
      push (.indexGet (.value (.int (Int64.ofNat element)) e.span) true whole e.span)
      let i ← identOf n name
      let ty ← tyOf n "declared type"
      push (.set ⟨isPub, isConst, i⟩ ty top n.span)
      return none) := by
  simp only [rule, nodeAt, hn, pure_bind, hkind, statement, set, declared, he, hshared,
    sharedElement, bind_assoc]

theorem proceeds_declare (n : Node) (isPub isConst : Bool) (name : String) (first : Instr) :
    Proceeds done (do
      push first
      let i ← identOf n name
      let ty ← tyOf n "declared type"
      push (.set ⟨isPub, isConst, i⟩ ty top n.span)
      return none : Lower σ (Option Instr))
      fun _ made _ _ => ∃ declaration ty, made = [first, .set declaration ty top n.span] := by
  refine proceeds_push_bind ?_
  refine (silent_identOf n name).bind fun i _ => ?_
  refine (silent_tyOf n _).bind fun ty _ => ?_
  exact proceeds_push_bind (proceeds_pure fun _ => ⟨_, ty, rfl⟩)

section Elements

variable [NameSupply σ] {id shared expr : NodeId} {e : Node} {element : Nat}
  {s s' : LowerState σ} {r : Option Instr} (he : t.node? shared = some e)
  (hshared : e.kind = .shared expr false) (hid : t.TakesElement id shared element)
  (h : node t id s = .ok r s')

include he hshared hid h

/-- The first use of a shared expression computes it into the register and reads the register. -/
theorem first_use (hnew : shared ∉ s.processed) :
    shared :: s.processed ⊆ s'.processed ∧ ∃ before v declaration ty span, s'.out.toList =
      s.out.toList ++ before ++ .mov (.register .ra e.span) v e.span ::
        [elementGet e.span element, .set declaration ty top span] := by
  obtain ⟨n, isPub, isConst, name, hn, hkind⟩ := hid
  have hrule : rule t (within t t.size) id s = .ok r s' := h
  rw [rule_set_shared hn hkind he hshared] at hrule
  obtain ⟨whole, s₁, hwhole, hrest⟩ := bind_eq_ok hrule
  obtain ⟨rfl, ⟨hcomputed, -⟩ | ⟨-, v, s₀, hoperand, rfl⟩⟩ := sharedWhole_cases hwhole
  · exact absurd (List.contains_iff_mem.mp hcomputed) hnew
  · have hwalk : ∀ c, Settles [.ra] t s.processed [c] (within t t.size c : Lower σ _)
        fun _ => True := settles_within (by simp) (by simp) t.size
    obtain ⟨hdone, before, hbefore, -⟩ :=
      settles_operand hwalk expr s v s₀ (List.Subset.refl _) hoperand
    obtain ⟨hdone', made, hmade, declaration, ty, rfl⟩ :=
      proceeds_declare n isPub isConst name _ _ r s' (List.cons_subset_cons shared hdone) hrest
    refine ⟨hdone', before, v, declaration, ty, n.span, ?_⟩
    rw [hmade, Array.toList_push, hbefore]
    simp [elementGet]

/-- A later use only reads the register. -/
theorem later_use (hcomputed : shared ∈ s.processed) :
    ∃ declaration ty span, s'.out.toList =
      s.out.toList ++ [elementGet e.span element, .set declaration ty top span] := by
  obtain ⟨n, isPub, isConst, name, hn, hkind⟩ := hid
  have hrule : rule t (within t t.size) id s = .ok r s' := h
  rw [rule_set_shared hn hkind he hshared] at hrule
  obtain ⟨whole, s₁, hwhole, hrest⟩ := bind_eq_ok hrule
  obtain ⟨rfl, ⟨-, rfl⟩ | ⟨hnew, -⟩⟩ := sharedWhole_cases hwhole
  · obtain ⟨-, made, hmade, declaration, ty, rfl⟩ :=
      proceeds_declare n isPub isConst name _ _ r s' (List.nil_subset _) hrest
    exact ⟨declaration, ty, n.span, hmade⟩
  · have hcontains := List.contains_iff_mem.mpr hcomputed
    rw [hcontains] at hnew
    cases hnew

end Elements

theorem all_append (xs ys : List NodeId) :
    all walk (xs ++ ys) = all walk xs >>= fun _ => all walk ys := by
  induction xs with
  | nil => rfl
  | cons x xs ih => simp only [List.cons_append, all, ih, bind_assoc]

/-- What is moved into the register of a shared expression between the computation and a later
use in the same row. -/
theorem between_uses [NameSupply σ] {first last shared expr : NodeId} {middle : List NodeId}
    {e : Node} {i j : Nat} {s s' : LowerState σ} (he : t.node? shared = some e)
    (hshared : e.kind = .shared expr false) (hfirst : t.TakesElement first shared i)
    (hlast : t.TakesElement last shared j) (hnew : shared ∉ s.processed)
    (h : all (node t) (first :: (middle ++ [last])) s = .ok () s') :
    ∃ before v between declaration ty span, s'.out.toList =
        s.out.toList ++ before ++ .mov (.register .ra e.span) v e.span ::
          (between ++ [elementGet e.span j, .set declaration ty top span]) ∧
      ((∀ c ∈ middle, t.Calm (shared :: s.processed) c) → movesIntoAll [.ra] between = []) ∧
      (t.Stirs s.processed [first] middle → movesIntoAll [.ra] between ≠ []) := by
  obtain ⟨_, s₁, hone, hrest⟩ := bind_eq_ok h
  rw [all_append] at hrest
  obtain ⟨_, s₂, hmiddle, hend⟩ := bind_eq_ok hrest
  obtain ⟨_, s₃, htwo, hnone⟩ := bind_eq_ok hend
  cases hnone
  obtain ⟨hdone, before, v, declaration, ty, span, hout⟩ :=
    first_use he hshared hfirst hone hnew
  have hwalk : ∀ done c, Settles [.ra] t done [c] (node t c : Lower σ _) fun _ => True :=
    fun done => settles_within (by simp) (by simp) (enough t)
  obtain ⟨-, _, -, hstart, -⟩ := hwalk s.processed first s _ s₁ (List.Subset.refl _) hone
  obtain ⟨hdone', made, hmade, hsettled, -⟩ := settles_all (hwalk _) middle s₁ _ s₂ hdone hmiddle
  obtain ⟨declaration', ty', span', hout'⟩ :=
    later_use he hshared hlast htwo (hdone' List.mem_cons_self)
  refine ⟨before, v, [elementGet e.span i, .set declaration ty top span] ++ made, declaration',
    ty', span', ?_, hsettled.calm, hsettled.stirred hstart.kept⟩
  rw [hout', hmade, hout]
  simp

/-! ## Live registers -/

/-- While a loop over an iterable or a shared expression is live, nothing else moves into its
registers if what is lowered meanwhile is calm. If it holds a loop over an iterable, or the first
use of another shared expression, then that does move into them. -/
theorem scratch_moves_while_live [NameSupply σ] (t : Tree) (s s' : LowerState σ) :
    (∀ (id : NodeId) (n : Node) (key value : Option NodeId) (expr block : NodeId)
        (r : Option Instr), t.node? id = some n → n.kind = .forIn key value expr block →
      node t id s = .ok r s' → ∃ labels before round,
        s'.out.toList = s.out.toList ++ [loopBlock labels n.span before round] ∧
        ((∀ c ∈ key, t.DeclaresPlainly c) → (∀ c ∈ value, t.DeclaresPlainly c) →
          t.Calm s.processed block → movesIntoAll loopRegisters round = [stepIndex n.span]) ∧
        (t.Stirs s.processed (expr :: (key.toList ++ value.toList)) [block] →
          movesIntoAll loopRegisters round ≠ [stepIndex n.span])) ∧
    (∀ (shared expr first last : NodeId) (e : Node) (i j : Nat) (middle : List NodeId),
      t.node? shared = some e → e.kind = .shared expr false → t.TakesElement first shared i →
      t.TakesElement last shared j → shared ∉ s.processed →
      all (node t) (first :: (middle ++ [last])) s = .ok () s' →
      ∃ before v between declaration ty span, s'.out.toList =
          s.out.toList ++ before ++ .mov (.register .ra e.span) v e.span ::
            (between ++ [elementGet e.span j, .set declaration ty top span]) ∧
        ((∀ c ∈ middle, t.Calm (shared :: s.processed) c) → movesIntoAll [.ra] between = []) ∧
        (t.Stirs s.processed [first] middle → movesIntoAll [.ra] between ≠ [])) := by
  constructor
  · intro id n key value expr block r hn hkind h
    exact round_of_forIn hn hkind h
  · intro shared expr first last e i j middle he hshared hfirst hlast hnew h
    exact between_uses he hshared hfirst hlast hnew h

/-- A loop over `ys` inside a loop over `xs`, two elements of `pair`, and two loops over `zs`: one
assigns each element to a name, and one takes an element of `pair`. -/
def nestedTree : Tree :=
  ⟨#[node (.ident "xs"), node (.ident "ys"), node (.block []), node (.forIn none none 1 2),
    node (.block [3]), node (.forIn none none 0 4), node (.ident "pair"), node (.shared 6 false),
    node (.set false false "a" 7 0), node (.set false false "b" 7 1), nothing,
    node (.set false false "z" 10 0), node (.ident "last"), node (.ident "z"),
    node (.update 12 13), node (.block [14]), node (.ident "zs"),
    node (.forIn none (some 11) 16 15), node (.block [8]), node (.forIn none none 16 18)]⟩
where
  node (kind : NodeKind) : Node := ⟨kind, .none, none, ⟨some .any, none, none, none, none⟩⟩
  nothing : Node := ⟨.literal, .none, none, ⟨some .any, some .nil, none, none, none⟩⟩

theorem nestedTree_calm : nestedTree.Calm [] 15 := by
  have hlast : nestedTree.Calm [] 12 := .node rfl trivial fun _ hc => nomatch hc
  have hz : nestedTree.Calm [] 13 := .node rfl trivial fun _ hc => nomatch hc
  have hassigned : nestedTree.Calm [] 14 :=
    .node rfl ⟨_, rfl, rfl⟩ (List.forall_mem_cons.mpr ⟨hlast, List.forall_mem_singleton.mpr hz⟩)
  exact .node rfl trivial (List.forall_mem_singleton.mpr hassigned)

/-- The body of the last loop uses `pair` for the first time. -/
theorem nestedTree_stirs_pair : nestedTree.Stirs [] [16] [18] := by
  have hblock : nestedTree.node? 18 = some (nestedTree.node (.block [8])) := rfl
  have hset : nestedTree.node? 8 = some (nestedTree.node (.set false false "a" 7 0)) := rfl
  have hshared : nestedTree.node? 7 = some (nestedTree.node (.shared 6 false)) := rfl
  refine ⟨18, List.mem_cons_self, 7, ?_, Or.inr ⟨rfl, nofun, ?_, ?_⟩⟩
  · exact .head ⟨_, hblock, List.mem_cons_self⟩ (.single ⟨_, hset, List.mem_cons_self⟩)
  · refine List.forall_mem_singleton.mpr fun hreaches => ?_
    rcases Relation.ReflTransGen.cases_head hreaches with heq | ⟨p, ⟨n, hn, hp⟩, -⟩
    · cases heq
    · cases hn
      cases hp
  · refine List.forall_mem_singleton.mpr ?_
    rintro ⟨f, htogether, hlambda, -⟩
    rcases htogether.inv hblock with rfl | ⟨p, hp, htogether⟩
    · cases hlambda
    obtain rfl := List.mem_singleton.mp hp
    rcases htogether.inv hset with rfl | ⟨p, hp, htogether⟩
    · cases hlambda
    obtain rfl := List.mem_singleton.mp hp
    obtain rfl := htogether.eq_of_inner_eq_nil hshared rfl
    cases hlambda

theorem nestedTree_stirs_loop : nestedTree.Stirs [] [8] [3] :=
  ⟨3, List.mem_cons_self, 3, .refl, Or.inl rfl⟩

theorem scratch_moves_while_live_nested :
    let s : LowerState SequentialNames := .ofNames .start
    (nestedTree.DeclaresPlainly 11 ∧ nestedTree.Calm s.processed 15 ∧
      ∃ s', node nestedTree 17 s = .ok none s' ∧
        ∃ labels before round, s'.out.toList = [loopBlock labels .none before round] ∧
          movesIntoAll loopRegisters round = [stepIndex .none]) ∧
    (nestedTree.Stirs s.processed [16] [18] ∧ ∃ s', node nestedTree 19 s = .ok none s' ∧
      ∃ labels before round, s'.out.toList = [loopBlock labels .none before round] ∧
        movesIntoAll loopRegisters round ≠ [stepIndex .none]) ∧
    (nestedTree.Stirs s.processed [8] [3] ∧
      ∃ s', all (node nestedTree) [8, 3, 9] s = .ok () s' ∧
        ∃ before v between declaration ty span, s'.out.toList =
            before ++ .mov (.register .ra .none) v .none ::
              (between ++ [elementGet .none 1, .set declaration ty top span]) ∧
          movesIntoAll [.ra] between ≠ []) := by
  intro s
  have hplainly : nestedTree.DeclaresPlainly 11 := ⟨_, rfl, fun name hname => by cases hname; rfl⟩
  refine ⟨⟨hplainly, nestedTree_calm, ?_⟩, ⟨nestedTree_stirs_pair, ?_⟩, ⟨nestedTree_stirs_loop, ?_⟩⟩
  · obtain ⟨s', hrun⟩ : ∃ s', node nestedTree 17 s = .ok none s' := ⟨_, rfl⟩
    obtain ⟨labels, before, round, hout, hkept, -⟩ :=
      (scratch_moves_while_live nestedTree s s').1 17 _ none (some 11) 16 15 none rfl rfl hrun
    exact ⟨s', hrun, labels, before, round, hout,
      hkept (fun _ hc => nomatch hc) (fun _ hc => by cases hc; exact hplainly) nestedTree_calm⟩
  · obtain ⟨s', hrun⟩ : ∃ s', node nestedTree 19 s = .ok none s' := ⟨_, rfl⟩
    obtain ⟨labels, before, round, hout, -, hmoved⟩ :=
      (scratch_moves_while_live nestedTree s s').1 19 _ none none 16 18 none rfl rfl hrun
    exact ⟨s', hrun, labels, before, round, hout, hmoved nestedTree_stirs_pair⟩
  · obtain ⟨s', hrun⟩ : ∃ s', all (node nestedTree) [8, 3, 9] s = .ok () s' := ⟨_, rfl⟩
    obtain ⟨before, v, between, declaration, ty, span, hout, -, hmoved⟩ :=
      (scratch_moves_while_live nestedTree s s').2 7 6 8 9 _ 0 1 [3] rfl rfl
        ⟨_, _, _, _, rfl, rfl⟩ ⟨_, _, _, _, rfl, rfl⟩ (fun hmem => nomatch hmem) hrun
    exact ⟨s', hrun, before, v, between, declaration, ty, span, hout, hmoved nestedTree_stirs_loop⟩

/-- How a loop over a name sets its registers. -/
def startOver (name : String) : List Instr :=
  [.mov (.register .ra .none) (.value (.named (.name name) .nil) .none) .none,
    .mov (.register .ri .none) (.value (.int 0) .none) .none]

/-- A round of the loop over `xs` in `nestedTree`, which ends at the first label. -/
def nestedRound (finish top' finish' : Ident) : List Instr :=
  eachCode .none none none finish ++ [.block [loopBlock ⟨top', finish'⟩ .none (startOver "ys")
    (eachCode .none none none finish' ++ [.block [] .none])] .none]

/-- Each round of the loop over `xs` sets both of its registers again for the loop over `ys`. -/
theorem nested_loop_overwrites :
    ∃ s' l₀ l₁ l₂ l₃,
      node nestedTree 5 (.ofNames SequentialNames.start) = .ok none s' ∧
      s'.out.toList = [loopBlock ⟨l₀, l₁⟩ .none (startOver "xs") (nestedRound l₁ l₂ l₃)] ∧
      movesIntoAll loopRegisters (nestedRound l₁ l₂ l₃) =
        stepIndex .none :: (startOver "ys" ++ [stepIndex .none]) :=
  ⟨_, _, _, _, _, rfl, rfl, rfl⟩

end Lower

end BytecodeCompiler
