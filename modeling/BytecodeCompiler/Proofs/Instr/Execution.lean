import BytecodeCompiler.Proofs.Instr.ResultStack
import BytecodeCompiler.Value.Agreement
import Mathlib.Logic.Function.Basic

-- A machine that runs the rows of one block. It has registers, a result stack and variables, and it
-- knows how values move, how integers are added and compared, how long an iterable is, and where
-- jumps lead. All else is left to a host: what an iterable is, how operands are built, and what the
-- other instructions do, blocks inside the block among them. What holds for every host does not
-- depend on any of this.

namespace BytecodeCompiler

/-! ## Stores -/

/-- What the machine holds. -/
structure Store (ω : Type) where
  registers : Register → Value
  stack : List Value
  vars : Ident → Option Value
  world : ω

namespace Store

variable {ω : Type}

def push (x : Value) (s : Store ω) : Store ω :=
  { s with stack := x :: s.stack }

def setRegister (r : Register) (x : Value) (s : Store ω) : Store ω :=
  { s with registers := Function.update s.registers r x }

def setVariable (name : Ident) (x : Value) (s : Store ω) : Store ω :=
  { s with vars := Function.update s.vars name (some x) }

/-- Move a value to a name: into a register, or else into a variable. -/
def assign (name : Ident) (x : Value) (s : Store ω) : Store ω :=
  match Register.ofValue? (.reference name) with
  | some r => s.setRegister r x
  | none => s.setVariable name x

theorem assign_variable {name : Ident} (h : Register.ofValue? (.reference name) = none) (x : Value)
    (s : Store ω) : s.assign name x = s.setVariable name x := by
  simp only [assign, h]

end Store

/-- How an instruction ends: the next one follows, or the one at a label. -/
inductive Outcome (ω : Type) where
  | next (s : Store ω)
  | jump (label : Ident) (s : Store ω)

/-- What the machine leaves to others. -/
structure Host (ω : Type) where
  /-- The elements of an iterable. -/
  elements : Value → Option (List Value)
  /-- What is found in a value at an index that is no position of an element. -/
  lookup : Value → Value → Option Value
  /-- What an operation gives for values that are no integers, and all other operations. -/
  operate : Operator → Value → Value → Option Value
  /-- The value of an operand that is built from others. -/
  build : Instr → Store ω → Option (Value × Store ω)
  /-- What any other instruction does. -/
  perform : Instr → Store ω → Option (Outcome ω)

/-! ## Instructions -/

namespace Instr

/-- The name that a move into an operand changes. The top of the stack is no such name. -/
def assignee? : Instr → Option Ident
  | .value (.named name fallback) _ =>
    if (Value.named name fallback).isTop then none else some name
  | _ => none

/-- Whether an instruction is the label. -/
def isLabelOf (l : Ident) : Instr → Bool
  | .label name _ => name == l
  | _ => false

end Instr

namespace Host

variable {ω : Type} (host : Host ω)

/-- Read an operand: its value, and the store that is left. -/
def read : Instr → Store ω → Option (Value × Store ω)
  | .value (.named name fallback) _, s =>
    match Register.ofValue? (.named name fallback) with
    | some .rpop =>
      match s.stack with
      | [] => none
      | x :: stack => some (x, { s with stack })
    | some r => some (s.registers r, s)
    | none => some ((s.vars name).getD fallback, s)
  | .value v _, s => some (v, s)
  | i, s => host.build i s

/-- What an operation gives. Integers are compared and added as they are. -/
def compute : Operator → Value → Value → Option Value
  | .less, .int m, .int n => some (.bool (m < n))
  | .add, .int m, .int n => some (.int (m + n))
  | op, x, y => host.operate op x y

/-- What is found in a value at an index. -/
def element (x index : Value) : Option Value :=
  match host.elements x, index with
  | some es, .int n => if 0 ≤ n then es[n.toNatClampNeg]? else host.lookup x index
  | _, _ => host.lookup x index

/-- Run one instruction. Operands are read in the order in which they are written. -/
def exec (i : Instr) (s : Store ω) : Option (Outcome ω) :=
  match i with
  | .label _ _ => some (.next s)
  | .jump l _ => some (.jump l s)
  | .compareJump a b l _ => do
    let (x, s) ← host.read a s
    let (y, s) ← host.read b s
    return if x.agrees y then .jump l s else .next s
  | .mov target a _ =>
    match target.assignee? with
    | some name => do
      let (x, s) ← host.read a s
      return .next (s.assign name x)
    | none => host.perform i s
  | .length a _ => do
    let (x, s) ← host.read a s
    let es ← host.elements x
    return .next (s.push (.int (Int64.ofNat es.length)))
  | .indexGet index _ target _ => do
    let (n, s) ← host.read index s
    let (x, s) ← host.read target s
    let e ← host.element x n
    return .next (s.push e)
  | .binary op left right _ => do
    let (y, s) ← host.read right s
    let (x, s) ← host.read left s
    let z ← host.compute op x y
    return .next (s.push z)
  | i => host.perform i s

/-- Run instructions in a row, none of which jumps. -/
def execAll : List Instr → Store ω → Option (Store ω)
  | [], s => some s
  | i :: is, s =>
    match host.exec i s with
    | some (.next s) => execAll is s
    | _ => none

theorem execAll_append (is js : List Instr) (s : Store ω) :
    host.execAll (is ++ js) s = (host.execAll is s).bind (host.execAll js) := by
  induction is generalizing s with
  | nil => rfl
  | cons i is ih =>
    simp only [List.cons_append, execAll]
    split
    · exact ih _
    · rfl

@[simp]
theorem read_register {r : Register} (h : r ≠ .rpop) (span : Span) (s : Store ω) :
    host.read (.register r span) s = some (s.registers r, s) := by
  cases r with
  | rpop => exact absurd rfl h
  | _ => rfl

@[simp]
theorem read_top (x : Value) (span : Span) (s : Store ω) :
    host.read (.register .rpop span) (s.push x) = some (x, s) := rfl

/-- A value that is no reference is read as it is. -/
theorem read_value {v : Value} (h : v.name? = none) (span : Span) (s : Store ω) :
    host.read (.value v span) s = some (v, s) := by
  cases v with
  | named name fallback => cases h
  | _ => rfl

theorem exec_mov_register {r : Register} (h : r ≠ .rpop) (a : Instr) (span span' : Span)
    (s : Store ω) : host.exec (.mov (.register r span) a span') s =
      (host.read a s).map fun (x, s) => .next (s.setRegister r x) := by
  cases r with
  | rpop => exact absurd rfl h
  | _ => cases hread : host.read a s <;> simp [exec, hread] <;> rfl

theorem exec_mov_variable {name : Ident} (h : Register.ofValue? (.reference name) = none)
    (a : Instr) (span span' : Span) (s : Store ω) :
    host.exec (.mov (.reference name span) a span') s =
      (host.read a s).map fun (x, s) => .next (s.setVariable name x) := by
  have hname : (Instr.reference name span).assignee? = some name := by
    have hplain : Register.ofValue? (Value.named name .nil) = none := h
    simp [Instr.reference, Value.reference, Instr.assignee?, Value.isTop, hplain]
  cases hread : host.read a s with
  | none => simp [exec, hname, hread]
  | some r => simp [exec, hname, hread, Store.assign_variable h]

/-- At the position of an element, the element is found. -/
theorem element_position {x : Value} {es : List Value} {j : Nat}
    (hes : host.elements x = some es) (hj : j < 0x8000000000000000) :
    host.element x (.int (Int64.ofNat j)) = es[j]? := by
  have hpositive : (0 : Int64) ≤ Int64.ofNat j := by
    rw [Int64.le_iff_toInt_le, Int64.toInt_ofNat_of_lt hj]
    exact Int.natCast_nonneg j
  simp [element, hes, hpositive, Int64.toNatClampNeg_ofNat_of_lt hj]

end Host

/-! ## Rows -/

/-- Where the machine is, and what it holds there. -/
structure Config (ω : Type) where
  row : Nat
  store : Store ω

/-- The instructions stand in the rows from a position on. -/
def Stands (rows : List Instr) (pos : Nat) (is : List Instr) : Prop :=
  ∃ before after, before.length = pos ∧ rows = before ++ is ++ after

namespace Stands

variable {rows is js : List Instr} {pos : Nat} {i : Instr}

theorem left (h : Stands rows pos (is ++ js)) : Stands rows pos is := by
  obtain ⟨before, after, hpos, hrows⟩ := h
  exact ⟨before, js ++ after, hpos, by simp [hrows]⟩

theorem right (h : Stands rows pos (is ++ js)) : Stands rows (pos + is.length) js := by
  obtain ⟨before, after, hpos, hrows⟩ := h
  exact ⟨before ++ is, after, by simp [hpos], by simp [hrows]⟩

theorem row (h : Stands rows pos (i :: is)) : rows[pos]? = some i := by
  obtain ⟨before, after, hpos, hrows⟩ := h
  simp [hrows, ← hpos]

theorem tail (h : Stands rows pos (i :: is)) : Stands rows (pos + 1) is := by
  rw [← List.singleton_append] at h
  exact h.right

end Stands

namespace Host

variable {ω β : Type} (host : Host ω) (rows : List Instr)

/-- One step in a block. A jump leads to the label in the block. There is no step after the last row
and none at a jump to a label that is not in the block. -/
def step (c : Config ω) : Option (Config ω) := do
  let i ← rows[c.row]?
  match ← host.exec i c.store with
  | .next s => return ⟨c.row + 1, s⟩
  | .jump l s => return ⟨← rows.findIdx? (·.isLabelOf l), s⟩

/-- A run of steps, and the log of what was seen at each of them. -/
inductive Runs (see : Config ω → Config ω → List β) : Config ω → List β → Config ω → Prop where
  | refl (c : Config ω) : Runs see c [] c
  | next {c d e : Config ω} {log : List β} (hstep : host.step rows c = some d)
      (rest : Runs see d log e) : Runs see c (see c d ++ log) e

/-- A run in which every step starts at a row from `lo` up to `hi`. -/
inductive RunsIn (lo hi : Nat) : Config ω → Config ω → Prop where
  | refl (c : Config ω) : RunsIn lo hi c c
  | next {c d e : Config ω} (hlo : lo ≤ c.row) (hhi : c.row < hi)
      (hstep : host.step rows c = some d) (rest : RunsIn lo hi d e) : RunsIn lo hi c e

variable {host rows}

namespace Runs

variable {see : Config ω → Config ω → List β} {c d e : Config ω} {log log' : List β}

theorem trans (h : host.Runs rows see c log d) (h' : host.Runs rows see d log' e) :
    host.Runs rows see c (log ++ log') e := by
  induction h with
  | refl c => exact h'
  | next hstep _ ih =>
    rw [List.append_assoc]
    exact .next hstep (ih h')

theorem one (hstep : host.step rows c = some d) : host.Runs rows see c (see c d) d := by
  have hrun : host.Runs rows see c (see c d ++ []) d := .next hstep (.refl d)
  rwa [List.append_nil] at hrun

/-- Every run that comes to an end goes on from where a run from the same start has come to. -/
theorem goes_on (h : host.Runs rows see c log d) (h' : host.Runs rows see c log' e)
    (he : host.step rows e = none) :
    ∃ rest, log' = log ++ rest ∧ host.Runs rows see d rest e := by
  induction h generalizing log' with
  | refl c => exact ⟨log', rfl, h'⟩
  | next hstep _ ih =>
    cases h' with
    | refl => cases he.symm.trans hstep
    | next hstep' rest' =>
      cases hstep.symm.trans hstep'
      obtain ⟨rest, rfl, hrest⟩ := ih rest'
      exact ⟨rest, by rw [List.append_assoc], hrest⟩

/-- There is only one run to where there are no more steps. -/
theorem unique (h : host.Runs rows see c log d) (hd : host.step rows d = none)
    (h' : host.Runs rows see c log' e) (he : host.step rows e = none) : log' = log ∧ e = d := by
  obtain ⟨rest, rfl, hrest⟩ := h.goes_on h' he
  cases hrest with
  | refl => exact ⟨List.append_nil _, rfl⟩
  | next hstep _ => cases hd.symm.trans hstep

end Runs

namespace RunsIn

variable {lo hi lo' hi' : Nat} {c d e : Config ω}

theorem trans (h : host.RunsIn rows lo hi c d) (h' : host.RunsIn rows lo hi d e) :
    host.RunsIn rows lo hi c e := by
  induction h with
  | refl c => exact h'
  | next hlo hhi hstep _ ih => exact .next hlo hhi hstep (ih h')

theorem widen (h : host.RunsIn rows lo hi c d) (hlo : lo' ≤ lo) (hhi : hi ≤ hi') :
    host.RunsIn rows lo' hi' c d := by
  induction h with
  | refl c => exact .refl c
  | next hlo₁ hhi₁ hstep _ ih =>
    exact .next (Nat.le_trans hlo hlo₁) (Nat.lt_of_lt_of_le hhi₁ hhi) hstep ih

/-- A run in which nothing is seen. -/
theorem runs {see : Config ω → Config ω → List β} (h : host.RunsIn rows lo hi c d)
    (hinside : ∀ c d, lo ≤ c.row → c.row < hi → lo ≤ d.row → d.row < hi → see c d = [])
    (hlast : ∀ c, lo ≤ c.row → c.row < hi → see c d = []) : host.Runs rows see c [] d := by
  induction h with
  | refl c => exact .refl c
  | @next c d e hlo hhi hstep rest ih =>
    have hnothing : see c d = [] := by
      cases rest with
      | refl => exact hlast c hlo hhi
      | next hlo' hhi' _ _ => exact hinside c d hlo hhi hlo' hhi'
    have hrun : host.Runs rows see c (see c d ++ []) e := .next hstep (ih hlast)
    rwa [hnothing] at hrun

/-- A run out of its rows, in which nothing is seen before the last step. -/
theorem runs_out {see : Config ω → Config ω → List β} {log : List β}
    (h : host.RunsIn rows lo hi c d) (hlo : lo ≤ c.row) (hhi : c.row < hi)
    (hd : ¬ (lo ≤ d.row ∧ d.row < hi))
    (hinside : ∀ c d, lo ≤ c.row → c.row < hi → lo ≤ d.row → d.row < hi → see c d = [])
    (hlast : ∀ c, lo ≤ c.row → c.row < hi → see c d = log) : host.Runs rows see c log d := by
  induction h with
  | refl c => exact absurd ⟨hlo, hhi⟩ hd
  | @next c d e hlo hhi hstep rest ih =>
    cases rest with
    | refl =>
      rw [← hlast c hlo hhi]
      exact .one hstep
    | next hlo' hhi' hstep' rest' =>
      have hrun : host.Runs rows see c (see c d ++ log) e := .next hstep (ih hlo' hhi' hd hlast)
      rwa [hinside c d hlo hhi hlo' hhi'] at hrun

end RunsIn

/-- Run a number of steps, or fewer if there are no more. -/
def runFor (host : Host ω) (rows : List Instr) (see : Config ω → Config ω → List β) :
    Nat → Config ω → List β × Config ω
  | 0, c => ([], c)
  | steps + 1, c =>
    match host.step rows c with
    | none => ([], c)
    | some d =>
      let (log, e) := runFor host rows see steps d
      (see c d ++ log, e)

theorem runs_runFor (see : Config ω → Config ω → List β) (steps : Nat) (c : Config ω) :
    host.Runs rows see c (host.runFor rows see steps c).1 (host.runFor rows see steps c).2 := by
  induction steps generalizing c with
  | zero => exact .refl c
  | succ steps ih =>
    rw [runFor]
    split
    · exact .refl c
    · rename_i d hstep
      exact .next hstep (ih d)

variable {is : List Instr} {i : Instr} {pos : Nat} {s s' : Store ω}

theorem step_next (hrow : rows[pos]? = some i) (hexec : host.exec i s = some (.next s')) :
    host.step rows ⟨pos, s⟩ = some ⟨pos + 1, s'⟩ := by
  simp [step, hrow, hexec]

theorem step_jump {l : Ident} {there : Nat} (hrow : rows[pos]? = some i)
    (hexec : host.exec i s = some (.jump l s'))
    (hlabel : rows.findIdx? (·.isLabelOf l) = some there) :
    host.step rows ⟨pos, s⟩ = some ⟨there, s'⟩ := by
  simp [step, hrow, hexec, hlabel]

/-- Instructions that do not jump are run one after the other. -/
theorem runsIn_of_execAll (h : Stands rows pos is) (hexec : host.execAll is s = some s') :
    host.RunsIn rows pos (pos + is.length) ⟨pos, s⟩ ⟨pos + is.length, s'⟩ := by
  induction is generalizing pos s with
  | nil =>
    cases hexec
    exact .refl _
  | cons i is ih =>
    simp only [execAll] at hexec
    split at hexec
    · rename_i s₁ hfirst
      have hrest := ih h.tail hexec
      rw [List.length_cons, Nat.add_comm is.length, ← Nat.add_assoc]
      refine .next (Nat.le_refl _) ?_ (step_next h.row hfirst) ?_
      · show pos < pos + 1 + is.length
        omega
      · exact hrest.widen (Nat.le_succ pos) (Nat.le_refl _)
    · cases hexec

end Host

end BytecodeCompiler
