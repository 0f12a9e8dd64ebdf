import BytecodeCompiler.Proofs.Lower.LoopLayout

-- A loop over an iterable visits every element once, in order. The machine runs the block of the
-- loop from its first row. The code of the expression, the declarations and the body may do
-- anything in their own rows, as long as they leave the registers of the loop alone. Each arrival
-- at the body from outside is logged with what the machine holds then.

namespace BytecodeCompiler

namespace Store

variable {ω : Type}

/-- Bind the variable of a loop, if there is one. -/
def bind (target : Option LoopTarget) (x : Value) (s : Store ω) : Store ω :=
  target.elim s fun v => s.setVariable v.name x

@[simp]
theorem registers_bind (target : Option LoopTarget) (x : Value) (s : Store ω) :
    (s.bind target x).registers = s.registers := by
  cases target <;> rfl

@[simp]
theorem stack_bind (target : Option LoopTarget) (x : Value) (s : Store ω) :
    (s.bind target x).stack = s.stack := by
  cases target <;> rfl

theorem vars_bind_of_mem {target : Option LoopTarget} {v : LoopTarget} (hv : v ∈ target)
    (x : Value) (s : Store ω) : (s.bind target x).vars v.name = some x := by
  obtain rfl : target = some v := hv
  exact Function.update_self ..

theorem vars_bind_of_ne {target : Option LoopTarget} {name : Ident}
    (h : ∀ v ∈ target, v.name ≠ name) (x : Value) (s : Store ω) :
    (s.bind target x).vars name = s.vars name := by
  cases target with
  | none => rfl
  | some v => exact Function.update_of_ne (h v rfl).symm ..

end Store

namespace ForInCode

variable {ω : Type} (c : ForInCode)

/-! ## What a loop is run with -/

/-- What is logged at a step: what the machine holds when it comes into the body. -/
def entersBody (before after : Config ω) : List (Store ω) :=
  if after.row = c.bodyAt ∧ ¬ (c.bodyAt ≤ before.row ∧ before.row < c.bodyEnd) then [after.store]
  else []

/-- Bind the element and then its position. -/
def bindBoth (x : Value) (j : Nat) (s : Store ω) : Store ω :=
  (s.bind c.value x).bind c.key (.int (Int64.ofNat j))

/-- The store with which the body starts a round: the element and its position are bound, and the
index is that of the next round. -/
def bound (x : Value) (j : Nat) (s : Store ω) : Store ω :=
  (c.bindBoth x j s).setRegister .ri (.int (Int64.ofNat (j + 1)))

/-- The loop binds variables that are no registers, and two different ones if it binds two. -/
structure BindsVariables : Prop where
  key : ∀ k ∈ c.key, Register.ofValue? (.reference k.name) = none
  value : ∀ v ∈ c.value, Register.ofValue? (.reference v.name) = none
  apart : ∀ k ∈ c.key, ∀ v ∈ c.value, k.name ≠ v.name

/-- From the first row on, the expression is computed, its value moved into the register of the
loop, and the declarations are run. They leave the registers of the loop as they are. -/
structure Enters (host : Host ω) (start : Store ω) (x : Value) (top : Store ω) : Prop where
  runs : ∃ s₁ s₂, host.RunsIn c.rows 0 c.first.length ⟨0, start⟩ ⟨c.first.length, s₁⟩ ∧
    host.read c.operand s₁ = some (x, s₂) ∧
    host.RunsIn c.rows c.declaredAt c.topAt
      ⟨c.declaredAt, (s₂.setRegister .ra x).setRegister .ri (.int 0)⟩ ⟨c.topAt, top⟩
  iterable : top.registers .ra = x
  index : top.registers .ri = .int 0

/-- The body falls through, and leaves the registers of the loop and the stack as it found them. -/
structure FallsThrough (host : Host ω) (s s' : Store ω) : Prop where
  runs : host.RunsIn c.rows c.bodyAt c.bodyEnd ⟨c.bodyAt, s⟩ ⟨c.bodyEnd, s'⟩
  iterable : s'.registers .ra = s.registers .ra
  index : s'.registers .ri = s.registers .ri
  stack : s'.stack = s.stack

/-- The body jumps to the end of the loop. -/
def Breaks (host : Host ω) (s s' : Store ω) : Prop :=
  host.RunsIn c.rows c.bodyAt c.bodyEnd ⟨c.bodyAt, s⟩ ⟨c.endAt, s'⟩

/-- The run from the first row comes to the label of the end with these visits to the body. It goes
on behind the block, and there is no other run that comes to an end. -/
structure Leaves (host : Host ω) (start : Store ω) (visits : List (Store ω)) (final : Store ω) :
    Prop where
  runs : host.Runs c.rows c.entersBody ⟨0, start⟩ visits ⟨c.endAt, final⟩
  only : ∀ {log e}, host.Runs c.rows c.entersBody ⟨0, start⟩ log e →
    host.step c.rows e = none → log = visits ∧ e = ⟨c.rows.length, final⟩

/-! ## What is logged -/

variable {c} {host : Host ω}

theorem entersBody_of_ne {before after : Config ω} (h : after.row ≠ c.bodyAt) :
    c.entersBody before after = [] := if_neg fun hin => h hin.1

theorem entersBody_of_inside {before after : Config ω} (hlo : c.bodyAt ≤ before.row)
    (hhi : before.row < c.bodyEnd) : c.entersBody before after = [] :=
  if_neg fun hin => hin.2 ⟨hlo, hhi⟩

/-- Nothing is logged before the body is reached. -/
theorem runs_before_body {lo hi : Nat} {before after : Config ω}
    (h : host.RunsIn c.rows lo hi before after) (hhi : hi ≤ c.bodyAt)
    (hafter : after.row ≠ c.bodyAt) : host.Runs c.rows c.entersBody before [] after :=
  h.runs (fun _ _ _ _ _ hd => entersBody_of_ne (by omega)) fun _ _ _ => entersBody_of_ne hafter

/-- Nothing is logged inside the body, nor when it is left. -/
theorem runs_in_body {before after : Config ω}
    (h : host.RunsIn c.rows c.bodyAt c.bodyEnd before after) :
    host.Runs c.rows c.entersBody before [] after :=
  h.runs (fun _ _ hlo hhi _ _ => entersBody_of_inside hlo hhi)
    fun _ hlo hhi => entersBody_of_inside hlo hhi

/-! ## Where the parts of a round stand -/

variable (c)

/-- The tests of a round push whether there is another element. -/
def tests : List Instr :=
  [.label c.labels.top c.span, .length (.register .ra c.span) c.span,
    .binary .less (.register .ri c.span) Lower.top c.span]

/-- The round is over if there is none. -/
def guard : Instr :=
  .compareJump Lower.top (.value (.bool false) c.span) c.labels.finish c.span

/-- The element is bound. -/
def bindsValue : List Instr :=
  c.value.toList.flatMap fun v =>
    [.indexGet (.register .ri c.span) true (.register .ra c.span) c.span,
      .mov v.instr Lower.top c.span]

/-- Its position is bound. -/
def bindsKey : List Instr :=
  c.key.toList.map fun k => .mov k.instr (.register .ri c.span) c.span

/-- The index of the next round is pushed. -/
def nextIndex : Instr := .binary .add (.register .ri c.span) (.value (.int 1) c.span) c.span

/-- What binds the variables and pushes the next index. -/
def binds : List Instr := c.bindsValue ++ c.bindsKey ++ [c.nextIndex]

/-- The top of a round is made of these parts. -/
theorem top_each : .label c.labels.top c.span :: c.each =
    c.tests ++ ([c.guard] ++ (c.binds ++ [Lower.stepIndex c.span])) := by
  rcases hkey : c.key with _ | k <;> rcases hvalue : c.value with _ | v <;>
    simp [each, Lower.eachCode, tests, guard, binds, bindsValue, bindsKey, nextIndex, hkey, hvalue]

theorem bodyAt_eq : c.bodyAt = c.topAt + 3 + 1 + c.binds.length + 1 := by
  have hlength := congrArg List.length c.top_each
  simp only [tests, List.length_cons, List.length_append, List.length_nil] at hlength
  simp only [bodyAt]
  omega

theorem stands_round : Stands c.rows c.topAt (c.tests ++ ([c.guard] ++ (c.binds ++
    [Lower.stepIndex c.span]))) := by
  refine ⟨c.first ++ c.moves ++ c.declared,
    c.inside ++ [.jump c.labels.top c.span, .label c.labels.finish c.span], ?_, ?_⟩
  · simp only [topAt, declaredAt, moves, List.length_append, List.length_cons, List.length_nil]
  · rw [← top_each]
    simp [rows]

theorem stands_top : Stands c.rows c.topAt [.label c.labels.top c.span] :=
  c.stands_round.left.left

/-- The jump back and the label of the end stand behind the body. -/
theorem stands_end : Stands c.rows c.bodyEnd
    [.jump c.labels.top c.span, .label c.labels.finish c.span] := by
  refine ⟨c.first ++ c.moves ++ c.declared ++ [.label c.labels.top c.span] ++ c.each ++ c.inside,
    [], ?_, by simp [rows]⟩
  simp only [bodyEnd, bodyAt, topAt, declaredAt, moves, List.length_append, List.length_cons,
    List.length_nil]

theorem stands_moves : Stands c.rows c.first.length c.moves :=
  ⟨c.first, c.declared ++ (.label c.labels.top c.span :: c.each) ++ c.inside ++
    [.jump c.labels.top c.span, .label c.labels.finish c.span], rfl, by simp [rows]⟩

theorem length_rows : c.rows.length = c.endAt + 1 := by
  simp only [rows, endAt, bodyEnd, bodyAt, topAt, declaredAt, moves, List.length_append,
    List.length_cons, List.length_nil]

/-! ## Instructions of a round -/

variable {c} {x e : Value} {es : List Value} {s : Store ω} {j : Nat}

theorem execAll_moves {s₁ s₂ : Store ω} (hread : host.read c.operand s₁ = some (x, s₂)) :
    host.execAll c.moves s₁ = some ((s₂.setRegister .ra x).setRegister .ri (.int 0)) := by
  have hra : Register.ra ≠ .rpop := by decide
  have hri : Register.ri ≠ .rpop := by decide
  simp only [moves, Host.execAll, Host.exec_mov_register host hra, hread, Option.map_some,
    Host.exec_mov_register host hri]
  rfl

/-- The tests push whether the index is below the length. -/
theorem execAll_tests (hx : s.registers .ra = x) (hj : s.registers .ri = .int (Int64.ofNat j))
    (hes : host.elements x = some es) :
    host.execAll c.tests s =
      some (s.push (.bool (Int64.ofNat j < Int64.ofNat es.length))) := by
  simp [tests, Host.execAll, Host.exec, hx, hes, Lower.top, hj, Host.compute]

/-- The element at the index is bound to the variable for it. -/
theorem execAll_bindsValue (hc : c.BindsVariables) (hx : s.registers .ra = x)
    (hj : s.registers .ri = .int (Int64.ofNat j))
    (he : host.element x (.int (Int64.ofNat j)) = some e) :
    host.execAll c.bindsValue s = some (s.bind c.value e) := by
  rcases hvalue : c.value with _ | v
  · simp [bindsValue, hvalue, Host.execAll, Store.bind]
  · have hget : host.exec (.indexGet (.register .ri c.span) true (.register .ra c.span) c.span) s =
        some (.next (s.push e)) := by
      simp [Host.exec, hj, hx, he]
    have hmov : host.exec (.mov v.instr Lower.top c.span) (s.push e) =
        some (.next (s.setVariable v.name e)) := by
      rw [LoopTarget.instr, Host.exec_mov_variable host (hc.value v hvalue), Lower.top,
        Host.read_top]
      rfl
    simp [bindsValue, hvalue, Host.execAll, hget, hmov, Store.bind]

/-- The index is bound to the variable for it. -/
theorem execAll_bindsKey (hc : c.BindsVariables) (hj : s.registers .ri = .int (Int64.ofNat j)) :
    host.execAll c.bindsKey s = some (s.bind c.key (.int (Int64.ofNat j))) := by
  rcases hkey : c.key with _ | k
  · simp [bindsKey, hkey, Host.execAll, Store.bind]
  · have hmov : host.exec (.mov k.instr (.register .ri c.span) c.span) s =
        some (.next (s.setVariable k.name (.int (Int64.ofNat j)))) := by
      rw [LoopTarget.instr, Host.exec_mov_variable host (hc.key k hkey),
        Host.read_register host (by decide), hj]
      rfl
    simp [bindsKey, hkey, Host.execAll, hmov, Store.bind]

/-- The guard pops what the tests pushed, and jumps to the end if it is false. -/
theorem exec_guard (b : Bool) : host.exec c.guard (s.push (.bool b)) =
    some (if b then .next s else .jump c.labels.finish s) := by
  cases b <;> rfl

/-- The variables are bound, and the next index is pushed. -/
theorem execAll_binds (hc : c.BindsVariables) (hx : s.registers .ra = x)
    (hj : s.registers .ri = .int (Int64.ofNat j))
    (he : host.element x (.int (Int64.ofNat j)) = some e) :
    host.execAll c.binds s = some ((c.bindBoth e j s).push (.int (Int64.ofNat (j + 1)))) := by
  have hindex : (c.bindBoth e j s).registers .ri = .int (Int64.ofNat j) := by
    simp [bindBoth, hj]
  have hnext : host.exec c.nextIndex (c.bindBoth e j s) =
      some (.next ((c.bindBoth e j s).push (.int (Int64.ofNat (j + 1))))) := by
    have hone : host.read (.value (.int 1) c.span) = fun s => some (.int 1, s) :=
      funext (Host.read_value host rfl c.span)
    simp [nextIndex, Host.exec, hone, hindex, Host.compute, Int64.ofNat_add]
  rw [binds, Host.execAll_append, Host.execAll_append, execAll_bindsValue hc hx hj he,
    Option.bind_some, execAll_bindsKey hc (by simpa using hj), Option.bind_some, ← bindBoth,
    Host.execAll, hnext]
  rfl

/-! ## Steps of a round -/

/-- Nothing is logged at a step that does not lead into the body. -/
theorem runs_step {before after : Config ω} (hstep : host.step c.rows before = some after)
    (h : after.row ≠ c.bodyAt) : host.Runs c.rows c.entersBody before [] after := by
  have hrun : host.Runs c.rows c.entersBody before (c.entersBody before after) after := .one hstep
  rwa [entersBody_of_ne h] at hrun

/-- Nothing is logged while instructions are run in a row before the body. -/
theorem runs_of_execAll {is : List Instr} {pos : Nat} {s' : Store ω} (h : Stands c.rows pos is)
    (hexec : host.execAll is s = some s') (hpos : pos + is.length < c.bodyAt) :
    host.Runs c.rows c.entersBody ⟨pos, s⟩ [] ⟨pos + is.length, s'⟩ :=
  runs_before_body (Host.runsIn_of_execAll h hexec) (Nat.le_of_lt hpos) (Nat.ne_of_lt hpos)

/-- The tests of a round are run up to the guard. -/
theorem runs_tests (hx : s.registers .ra = x) (hj : s.registers .ri = .int (Int64.ofNat j))
    (hes : host.elements x = some es) :
    host.Runs c.rows c.entersBody ⟨c.topAt, s⟩ []
      ⟨c.topAt + 3, s.push (.bool (Int64.ofNat j < Int64.ofNat es.length))⟩ := by
  have hbody := c.bodyAt_eq
  refine runs_of_execAll c.stands_round.left (execAll_tests hx hj hes) ?_
  show c.topAt + 3 < c.bodyAt
  omega

/-- From the guard on, a round with an element left binds it and its position. -/
theorem runs_binds (hc : c.BindsVariables) (hx : s.registers .ra = x)
    (hj : s.registers .ri = .int (Int64.ofNat j))
    (he : host.element x (.int (Int64.ofNat j)) = some e) :
    host.Runs c.rows c.entersBody ⟨c.topAt + 3, s.push (.bool true)⟩ []
      ⟨c.topAt + 4 + c.binds.length, (c.bindBoth e j s).push (.int (Int64.ofNat (j + 1)))⟩ := by
  have hbody := c.bodyAt_eq
  have hguard : host.step c.rows ⟨c.topAt + 3, s.push (.bool true)⟩ = some ⟨c.topAt + 4, s⟩ :=
    Host.step_next c.stands_round.right.left.row (exec_guard true)
  have hbinds : Stands c.rows (c.topAt + 4) c.binds := c.stands_round.right.right.left
  refine (runs_step hguard ?_).trans (runs_of_execAll hbinds (execAll_binds hc hx hj he) ?_)
  · show c.topAt + 4 ≠ c.bodyAt
    omega
  · omega

/-- A round with an element left comes into the body from outside, with its variables bound and the
index stepped. -/
theorem runs_into_body (hc : c.BindsVariables) (hx : s.registers .ra = x)
    (hj : s.registers .ri = .int (Int64.ofNat j)) (hes : host.elements x = some es)
    (hshort : es.length < 0x8000000000000000) (he : es[j]? = some e) :
    host.Runs c.rows c.entersBody ⟨c.topAt, s⟩ [c.bound e j s] ⟨c.bodyAt, c.bound e j s⟩ := by
  have hbody := c.bodyAt_eq
  have hlt : j < es.length := (List.getElem?_eq_some_iff.mp he).1
  have hless : Int64.ofNat j < Int64.ofNat es.length :=
    (Int64.ofNat_lt_iff_lt (Nat.lt_trans hlt hshort) hshort).mpr hlt
  have helement : host.element x (.int (Int64.ofNat j)) = some e := by
    rw [Host.element_position host hes (Nat.lt_trans hlt hshort), he]
  have htests : host.Runs c.rows c.entersBody ⟨c.topAt, s⟩ [] _ := runs_tests hx hj hes
  rw [decide_eq_true hless] at htests
  have hstep : host.step c.rows ⟨c.topAt + 4 + c.binds.length,
      (c.bindBoth e j s).push (.int (Int64.ofNat (j + 1)))⟩ = some ⟨c.bodyAt, c.bound e j s⟩ := by
    rw [hbody]
    refine Host.step_next c.stands_round.right.right.right.row ?_
    rw [Lower.stepIndex, Host.exec_mov_register host (by decide), Lower.top, Host.read_top]
    rfl
  have hentered : ∀ s', c.entersBody ⟨c.topAt + 4 + c.binds.length, s'⟩
      ⟨c.bodyAt, c.bound e j s⟩ = [c.bound e j s] := by
    refine fun s' => if_pos ⟨rfl, fun hin => ?_⟩
    have hinside : c.bodyAt ≤ c.topAt + 4 + c.binds.length := hin.1
    omega
  have hrun := (htests.trans (runs_binds hc hx hj helement)).trans (.one hstep)
  rwa [hentered] at hrun

/-- A round with no element left jumps to the end. -/
theorem runs_to_end (hnodup : (Instr.labelNames c.rows).Nodup) (hx : s.registers .ra = x)
    (hj : s.registers .ri = .int (Int64.ofNat es.length)) (hes : host.elements x = some es) :
    host.Runs c.rows c.entersBody ⟨c.topAt, s⟩ [] ⟨c.endAt, s⟩ := by
  have htests : host.Runs c.rows c.entersBody ⟨c.topAt, s⟩ [] _ := runs_tests hx hj hes
  rw [decide_eq_false (Int64.lt_irrefl)] at htests
  have hguard : host.step c.rows ⟨c.topAt + 3, s.push (.bool false)⟩ = some ⟨c.endAt, s⟩ :=
    Host.step_jump c.stands_round.right.left.row (exec_guard false)
      (Instr.findIdx?_isLabelOf c.stands_end.tail hnodup)
  refine htests.trans (runs_step hguard ?_)
  show c.bodyAt + c.inside.length + 1 ≠ c.bodyAt
  omega

/-- Behind the body, the round starts again. -/
theorem runs_back (hnodup : (Instr.labelNames c.rows).Nodup) :
    host.Runs c.rows c.entersBody ⟨c.bodyEnd, s⟩ [] ⟨c.topAt, s⟩ := by
  have hback : host.step c.rows ⟨c.bodyEnd, s⟩ = some ⟨c.topAt, s⟩ :=
    Host.step_jump c.stands_end.row rfl (Instr.findIdx?_isLabelOf c.stands_top hnodup)
  refine runs_step hback ?_
  show c.topAt ≠ c.topAt + 1 + c.each.length
  omega

/-- Before the first round, the iterable is computed and the declarations are run. -/
theorem Enters.runs_to_top {start top : Store ω} (h : c.Enters host start x top) :
    host.Runs c.rows c.entersBody ⟨0, start⟩ [] ⟨c.topAt, top⟩ := by
  obtain ⟨s₁, s₂, hfirst, hread, hdeclared⟩ := h.runs
  have hbody : c.first.length + 2 + c.declared.length < c.bodyAt := by
    simp only [bodyAt, topAt, declaredAt]
    omega
  have hmoves : host.Runs c.rows c.entersBody ⟨c.first.length, s₁⟩ [] ⟨c.declaredAt, _⟩ :=
    runs_of_execAll c.stands_moves (execAll_moves hread)
      (show c.first.length + 2 < c.bodyAt by omega)
  refine ((runs_before_body hfirst ?_ ?_).trans hmoves).trans (runs_before_body hdeclared ?_ ?_)
  · omega
  · show c.first.length ≠ c.bodyAt
    omega
  · exact Nat.le_of_lt hbody
  · exact Nat.ne_of_lt hbody

/-! ## Rounds -/

/-- Before the round of a position, the registers of the loop hold the iterable and the position,
and the stack is as before the first round. -/
structure Ready (x : Value) (stack : List Value) (j : Nat) (s : Store ω) : Prop where
  iterable : s.registers .ra = x
  index : s.registers .ri = .int (Int64.ofNat j)
  stack : s.stack = stack

variable {stack : List Value}

/-- A round whose body falls through makes the next one ready. -/
theorem FallsThrough.ready {s' : Store ω} (h : c.FallsThrough host (c.bound e j s) s')
    (hs : Ready x stack j s) : Ready x stack (j + 1) s' where
  iterable := by simpa [bound, bindBoth, Store.setRegister, hs.iterable] using h.iterable
  index := by simpa [bound, Store.setRegister] using h.index
  stack := by simpa [bound, bindBoth, Store.setRegister, hs.stack] using h.stack

variable {visit before : Nat → Store ω}

/-- As long as the body falls through, there is one visit for each position, and the next round is
ready. -/
theorem runs_rounds (hc : c.BindsVariables) (hnodup : (Instr.labelNames c.rows).Nodup)
    (hes : host.elements x = some es) (hshort : es.length < 0x8000000000000000)
    (hfirst : Ready x stack 0 (before 0))
    (hvisit : ∀ j e, es[j]? = some e → visit j = c.bound e j (before j)) {k : Nat}
    (hk : k ≤ es.length) (hfalls : ∀ j < k, c.FallsThrough host (visit j) (before (j + 1))) :
    host.Runs c.rows c.entersBody ⟨c.topAt, before 0⟩ ((List.range k).map visit)
      ⟨c.topAt, before k⟩ ∧ Ready x stack k (before k) := by
  induction k with
  | zero => exact ⟨.refl _, hfirst⟩
  | succ k ih =>
    obtain ⟨hruns, hready⟩ := ih (Nat.le_of_succ_le hk) fun j hj => hfalls j (Nat.lt_succ_of_lt hj)
    have hbody := hfalls k (Nat.lt_succ_self k)
    obtain ⟨e, he⟩ : ∃ e, es[k]? = some e := ⟨_, List.getElem?_eq_getElem hk⟩
    have hinto := runs_into_body hc hready.iterable hready.index hes hshort he
    rw [← hvisit k e he] at hinto
    rw [List.range_succ, List.map_append]
    refine ⟨hruns.trans ?_, ?_⟩
    · exact hinto.trans ((runs_in_body hbody.runs).trans (runs_back hnodup))
    · rw [hvisit k e he] at hbody
      exact hbody.ready hready

/-- What comes to the label of the end goes on behind the block, and does so in one way only. -/
theorem leaves_of_runs {start final : Store ω} {visits : List (Store ω)}
    (h : host.Runs c.rows c.entersBody ⟨0, start⟩ visits ⟨c.endAt, final⟩) :
    c.Leaves host start visits final := by
  refine ⟨h, fun {log e} hrun hend => ?_⟩
  have hstep : host.step c.rows ⟨c.endAt, final⟩ = some ⟨c.rows.length, final⟩ := by
    rw [c.length_rows]
    exact Host.step_next c.stands_end.tail.row rfl
  have hlast : host.step c.rows ⟨c.rows.length, final⟩ = none := by
    simp [Host.step]
  have hout := runs_step hstep (by
    show c.rows.length ≠ c.bodyAt
    rw [c.length_rows, endAt, bodyEnd]
    omega)
  have hwhole := h.trans hout
  rw [List.append_nil] at hwhole
  exact hwhole.unique hlast hrun hend

theorem leaves_of_runFor {start : Store ω} (steps : Nat)
    (h : (host.runFor c.rows c.entersBody steps ⟨0, start⟩).2.row = c.endAt) :
    c.Leaves host start (host.runFor c.rows c.entersBody steps ⟨0, start⟩).1
      (host.runFor c.rows c.entersBody steps ⟨0, start⟩).2.store := by
  refine leaves_of_runs ?_
  rw [← h]
  exact Host.runs_runFor c.entersBody steps ⟨0, start⟩

/-- If the body always falls through, there is one visit for each element. -/
theorem leaves_of_fallsThrough {start : Store ω} (hc : c.BindsVariables)
    (hnodup : (Instr.labelNames c.rows).Nodup) (hes : host.elements x = some es)
    (hshort : es.length < 0x8000000000000000) (henters : c.Enters host start x (before 0))
    (hvisit : ∀ j e, es[j]? = some e → visit j = c.bound e j (before j))
    (hfalls : ∀ j < es.length, c.FallsThrough host (visit j) (before (j + 1))) :
    c.Leaves host start ((List.range es.length).map visit) (before es.length) ∧
      (before es.length).stack = (before 0).stack := by
  have hready : Ready x (before 0).stack 0 (before 0) := ⟨henters.iterable, henters.index, rfl⟩
  obtain ⟨hruns, hlast⟩ := runs_rounds hc hnodup hes hshort hready hvisit (Nat.le_refl _) hfalls
  have hend := runs_to_end hnodup hlast.iterable hlast.index hes
  have hwhole := (henters.runs_to_top.trans hruns).trans hend
  rw [List.nil_append, List.append_nil] at hwhole
  exact ⟨leaves_of_runs hwhole, hlast.stack⟩

/-- If the body breaks, there is one visit for each element up to the one it breaks at. -/
theorem leaves_of_breaks {start final : Store ω} {i : Nat} (hc : c.BindsVariables)
    (hnodup : (Instr.labelNames c.rows).Nodup) (hes : host.elements x = some es)
    (hshort : es.length < 0x8000000000000000) (henters : c.Enters host start x (before 0))
    (hvisit : ∀ j e, es[j]? = some e → visit j = c.bound e j (before j)) (hi : i < es.length)
    (hfalls : ∀ j < i, c.FallsThrough host (visit j) (before (j + 1)))
    (hbreaks : c.Breaks host (visit i) final) :
    c.Leaves host start ((List.range (i + 1)).map visit) final := by
  have hready : Ready x (before 0).stack 0 (before 0) := ⟨henters.iterable, henters.index, rfl⟩
  obtain ⟨hruns, hlast⟩ := runs_rounds hc hnodup hes hshort hready hvisit (Nat.le_of_lt hi) hfalls
  have he := List.getElem?_eq_getElem hi
  have hinto := runs_into_body hc hlast.iterable hlast.index hes hshort he
  rw [← hvisit i _ he] at hinto
  have hwhole := ((henters.runs_to_top.trans hruns).trans hinto).trans (runs_in_body hbreaks)
  rw [List.nil_append, List.append_nil] at hwhole
  rw [List.range_succ, List.map_append]
  exact leaves_of_runs hwhole

/-- In each round, the variables are bound to the element and to its position. -/
theorem vars_bound (hc : c.BindsVariables) (e : Value) (j : Nat) (s : Store ω) :
    (∀ v ∈ c.value, (c.bound e j s).vars v.name = some e) ∧
    ∀ k ∈ c.key, (c.bound e j s).vars k.name = some (.int (Int64.ofNat j)) := by
  constructor
  · intro v hv
    show ((s.bind c.value e).bind c.key _).vars v.name = some e
    rw [Store.vars_bind_of_ne fun k hk => hc.apart k hk v hv, Store.vars_bind_of_mem hv]
  · intro k hk
    exact Store.vars_bind_of_mem hk ..

end ForInCode

/-! ## Whole loops -/

/-- A loop over an iterable visits every element once, in order. The loop is lowered to one block,
with the code of its expression, its declarations and its body as parts. Let the machine run the
block with an iterable whose length an index can hold, let the head of the loop leave its two
registers alone, and let the loop bind variables, two different ones if it binds two. In each round
the body starts with the variables bound to the element and its position. If the body always falls
through, there is one round for each element, and the end is reached with the stack of the first
round. If it breaks out of a round, that round was the last one. -/
theorem forIn_visits_elements {σ : Type} [NameSupply σ] {t : Tree} {id : NodeId} {n : Node}
    {key value : Option NodeId} {expr block : NodeId} (hn : t.node? id = some n)
    (hkind : n.kind = .forIn key value expr block) {steps : Nat} {s s' : LowerState σ}
    {r : Option Instr} (hnames : NameSupply.NeverRepeats s.names)
    (h : Lower.within t (steps + 1) id s = .ok r s') :
    (∃ c : ForInCode, s'.out.toList = s.out.toList ++ [.block c.rows c.span] ∧
      c.LoweredFrom t (Lower.within t steps : Lower.Walk σ) key value expr block) ∧
    ∀ c : ForInCode, s'.out.toList = s.out.toList ++ [.block c.rows c.span] → c.BindsVariables →
      ∀ (ω : Type) (host : Host ω) (start : Store ω) (x : Value) (es : List Value)
        (before : Nat → Store ω), c.Enters host start x (before 0) → host.elements x = some es →
        es.length < 0x8000000000000000 →
        let visit := fun j => c.bound (es.getD j .nil) j (before j)
        (∀ j < es.length, (∀ v ∈ c.value, (visit j).vars v.name = es[j]?) ∧
          ∀ k ∈ c.key, (visit j).vars k.name = some (.int (Int64.ofNat j))) ∧
        ((∀ j < es.length, c.FallsThrough host (visit j) (before (j + 1))) →
          c.Leaves host start ((List.range es.length).map visit) (before es.length) ∧
          (before es.length).stack = (before 0).stack) ∧
        ∀ i < es.length, ∀ final, (∀ j < i, c.FallsThrough host (visit j) (before (j + 1))) →
          c.Breaks host (visit i) final →
          c.Leaves host start ((List.range (i + 1)).map visit) final := by
  refine ⟨Lower.emitted_forIn hn hkind h, ?_⟩
  intro c hout hc ω host start x es before henters hes hshort visit
  have hnodup : (Instr.labelNames c.rows).Nodup := by
    rw [← (Instr.names_block c.rows c.span).1]
    exact (Lower.careful_within t (steps + 1) id).nodup_labelNames hnames h hout
  have hvisit : ∀ j e, es[j]? = some e → visit j = c.bound e j (before j) := by
    intro j e he
    simp only [visit, List.getD_eq_getElem?_getD, he, Option.getD_some]
  refine ⟨fun j hj => ?_, fun hfalls => ?_, fun i hi final hfalls hbreaks => ?_⟩
  · rw [List.getElem?_eq_getElem hj, hvisit j _ (List.getElem?_eq_getElem hj)]
    exact ForInCode.vars_bound hc _ j (before j)
  · exact ForInCode.leaves_of_fallsThrough hc hnodup hes hshort henters hvisit hfalls
  · exact ForInCode.leaves_of_breaks hc hnodup hes hshort henters hvisit hi hfalls hbreaks

/-! ## Some loops -/

/-- A host that knows arrays and declarations, and empty blocks. -/
def Host.plain : Host Unit where
  elements
    | .array _ values => some values
    | _ => none
  lookup _ _ := none
  operate _ _ _ := none
  build _ _ := none
  perform
    | .set decl _ (.value v _) _, s =>
      match v.isTop, s.stack with
      | true, x :: stack => some (.next (Store.setVariable decl.name x { s with stack }))
      | true, [] => none
      | false, _ => some (.next (s.setVariable decl.name v))
    | .block [] _, s => some (.next s)
    | _, _ => none

namespace Lower

/-- Four loops over `xs`. One binds `i` and `v` and moves `v` to `last`. In one, the variable `w` is
declared as an element of `ys`. One binds `v` both to the element and to its position. One breaks in
its first round. -/
def loopTree : Tree :=
  ⟨#[node (.ident "xs"), nothing, node (.set false false "i" 1 0), node (.set false false "v" 1 0),
    node (.ident "last"), node (.ident "v"), node (.update 4 5),
    node (.forIn (some 2) (some 3) 0 6), node (.ident "ys"), node (.shared 8 false),
    node (.set false false "w" 9 0), node (.block []), node (.forIn none (some 10) 0 11),
    node (.forIn (some 3) (some 3) 0 11), ⟨.breakLoop, .none, some 15, .empty⟩,
    node (.forIn none (some 3) 0 14)]⟩
where
  node (kind : NodeKind) : Node := ⟨kind, .none, none, ⟨some .any, none, none, none, none⟩⟩
  nothing : Node := ⟨.literal, .none, none, ⟨some .any, some .nil, none, none, none⟩⟩

/-- The code of a loop over `xs` in `loopTree`. -/
def loopCode (declared : List Instr) (key value : Option String) (inside : List Instr) :
    ForInCode :=
  ⟨⟨.name "L0", .name "L1"⟩, .none, [], .reference (.name "xs") .none, declared,
    key.map (⟨.name ·, .none⟩), value.map (⟨.name ·, .none⟩), inside⟩

/-- The declaration of a name in the head of a loop. -/
def declare (name : String) (v : Instr) : Instr := .set ⟨false, false, .name name⟩ .any v .none

/-- The store to start with: `xs` is an array of 10 and 20, and `ys` is an array of 5. -/
def loopStart : Store Unit where
  registers _ := .nil
  stack := [.string "waiting"]
  vars
    | .name "xs" => some (.array .int [.int 10, .int 20])
    | .name "ys" => some (.array .int [.int 5])
    | _ => none
  world := ()

/-- The loop that binds `i` and `v`. -/
def indexedCode : ForInCode :=
  loopCode [declare "i" (.nil .none), declare "v" (.nil .none)] (some "i") (some "v")
    [.mov (.reference (.name "last") .none) (.reference (.name "v") .none) .none]

/-- The elements of `xs`. -/
def loopElements : List Value := [.int 10, .int 20]

/-- The stores before the rounds of the loop that binds `i` and `v`. -/
def indexedRounds : Nat → Store Unit
  | 0 => (((loopStart.setRegister .ra (.array .int loopElements)).setRegister .ri
      (.int 0)).setVariable (.name "i") .nil).setVariable (.name "v") .nil
  | j + 1 => (indexedCode.bound (loopElements.getD j .nil) j (indexedRounds j)).setVariable
      (.name "last") (loopElements.getD j .nil)

theorem indexed_fallsThrough (j : Nat) :
    indexedCode.FallsThrough Host.plain
      (indexedCode.bound (loopElements.getD j .nil) j (indexedRounds j))
      (indexedRounds (j + 1)) where
  runs := .next (Nat.le_refl _) (Nat.lt_succ_self _) rfl (.refl _)
  iterable := rfl
  index := rfl
  stack := rfl

theorem indexed_enters :
    indexedCode.Enters Host.plain loopStart (.array .int loopElements) (indexedRounds 0) where
  runs := by
    refine ⟨loopStart, loopStart, .refl _, rfl, ?_⟩
    exact .next (Nat.le_refl _) (by decide) rfl (.next (by decide) (by decide) rfl (.refl _))
  iterable := rfl
  index := rfl

/-- The loop that breaks. -/
def brokenCode : ForInCode :=
  loopCode [declare "v" (.nil .none)] none (some "v") [.jump (.name "L1") .none]

/-- The store before its first round. -/
def brokenTop : Store Unit :=
  ((loopStart.setRegister .ra (.array .int loopElements)).setRegister .ri (.int 0)).setVariable
    (.name "v") .nil

theorem broken_enters :
    brokenCode.Enters Host.plain loopStart (.array .int loopElements) brokenTop where
  runs := ⟨loopStart, loopStart, .refl _, rfl, .next (Nat.le_refl _) (by decide) rfl (.refl _)⟩
  iterable := rfl
  index := rfl

/-- The loop that binds `i` and `v` visits both elements of `xs`. The loop that breaks visits the
first one only. -/
theorem forIn_visits_elements_array :
    let visit := fun j => indexedCode.bound (loopElements.getD j .nil) j (indexedRounds j)
    let broken := brokenCode.bound (.int 10) 0 brokenTop
    (∃ s', node loopTree 7 (.ofNames SequentialNames.start) = .ok none s' ∧
      s'.out.toList = [.block indexedCode.rows .none] ∧
      (∀ j < 2, indexedCode.FallsThrough Host.plain (visit j) (indexedRounds (j + 1))) ∧
      indexedCode.Leaves Host.plain loopStart [visit 0, visit 1] (indexedRounds 2) ∧
      (visit 1).vars (.name "v") = some (.int 20) ∧ (visit 1).vars (.name "i") = some (.int 1) ∧
      (indexedRounds 2).stack = [.string "waiting"]) ∧
    ∃ s', node loopTree 15 (.ofNames SequentialNames.start) = .ok none s' ∧
      s'.out.toList = [.block brokenCode.rows .none] ∧ brokenCode.Breaks Host.plain broken broken ∧
      brokenCode.Leaves Host.plain loopStart [broken] broken := by
  intro visit broken
  constructor
  · obtain ⟨s', hrun, hout⟩ : ∃ s',
        node loopTree 7 (.ofNames SequentialNames.start) = .ok none s' ∧
        s'.out.toList = [.block indexedCode.rows .none] := ⟨_, rfl, rfl⟩
    have hbinds : indexedCode.BindsVariables :=
      ⟨fun k hk => by cases hk; rfl, fun v hv => by cases hv; rfl,
        fun k hk v hv => by cases hk; cases hv; decide⟩
    obtain ⟨hbound, hfalls, -⟩ :=
      (forIn_visits_elements rfl rfl (SequentialNames.neverRepeats _) hrun).2 indexedCode hout
        hbinds Unit Host.plain loopStart _ loopElements indexedRounds indexed_enters rfl (by decide)
    obtain ⟨hleaves, hstack⟩ := hfalls fun j _ => indexed_fallsThrough j
    obtain ⟨hv, hi⟩ := hbound 1 (by decide)
    exact ⟨s', hrun, hout, fun j _ => indexed_fallsThrough j, hleaves, hv _ rfl, hi _ rfl, hstack⟩
  · obtain ⟨s', hrun, hout⟩ : ∃ s',
        node loopTree 15 (.ofNames SequentialNames.start) = .ok none s' ∧
        s'.out.toList = [.block brokenCode.rows .none] := ⟨_, rfl, rfl⟩
    have hbinds : brokenCode.BindsVariables :=
      ⟨fun k hk => (nomatch hk), fun v hv => by cases hv; rfl, fun k hk => nomatch hk⟩
    have hbreaks : brokenCode.Breaks Host.plain broken broken :=
      .next (Nat.le_refl _) (Nat.lt_succ_self _) rfl (.refl _)
    obtain ⟨-, -, hbroken⟩ :=
      (forIn_visits_elements rfl rfl (SequentialNames.neverRepeats _) hrun).2 brokenCode hout hbinds
        Unit Host.plain loopStart _ loopElements (fun _ => brokenTop) broken_enters rfl (by decide)
    exact ⟨s', hrun, hout, hbreaks,
      hbroken 0 (by decide) broken (fun j hj => nomatch hj) hbreaks⟩

/-- The loop whose variable is declared as an element of `ys`. -/
def sharedCode : ForInCode :=
  loopCode [.mov (.register .ra .none) (.reference (.name "ys") .none) .none, elementGet .none 0,
    declare "w" top] none (some "w") [.block [] .none]

/-- The loop that binds `v` twice. -/
def twiceCode : ForInCode :=
  loopCode [declare "v" (.nil .none), declare "v" (.nil .none)] (some "v") (some "v")
    [.block [] .none]

/-- Two loops over `xs`, which has two elements. The one whose variable is declared as an element of
`ys` visits the one element of `ys`. The one that binds `v` twice leaves the position in it. -/
theorem declarations_change_visits :
    loopStart.vars (.name "xs") = some (.array .int [.int 10, .int 20]) ∧
    (∃ s', node loopTree 12 (.ofNames SequentialNames.start) = .ok none s' ∧
      s'.out.toList = [.block sharedCode.rows .none] ∧
      ∃ visits final, sharedCode.Leaves Host.plain loopStart visits final ∧
        visits.map (·.vars (.name "w")) = [some (.int 5)]) ∧
    ∃ s', node loopTree 13 (.ofNames SequentialNames.start) = .ok none s' ∧
      s'.out.toList = [.block twiceCode.rows .none] ∧
      ∃ visits final, twiceCode.Leaves Host.plain loopStart visits final ∧
        visits.map (·.vars (.name "v")) = [some (.int 0), some (.int 1)] := by
  refine ⟨rfl, ?_, ?_⟩
  · exact ⟨_, rfl, rfl, _, _, ForInCode.leaves_of_runFor 19 rfl, rfl⟩
  · exact ⟨_, rfl, rfl, _, _, ForInCode.leaves_of_runFor 30 rfl, rfl⟩

end Lower

end BytecodeCompiler
