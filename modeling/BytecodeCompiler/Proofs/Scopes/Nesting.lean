import BytecodeCompiler.Proofs.Scopes
import Mathlib.Data.List.Induction
import Mathlib.Data.List.Infix

-- Whole runs of what a checker does with its scopes. A run that never closes more scopes than it
-- opened leaves the scopes below it alone, so closing what it left open brings back the scopes it
-- started with. In between, what is known is what was known at the start and the declarations that
-- were accepted and whose scopes are still open.

namespace BytecodeCompiler

/-- What a checker does with its scopes. -/
inductive ScopeOp where
  | push
  | pop
  | declare (symbol : Symbol)
  | lookup (name : String)
  | isLocal (name : String)

namespace ScopeOp

def isPush : ScopeOp → Bool
  | .push => true
  | _ => false

def isPop : ScopeOp → Bool
  | .pop => true
  | _ => false

end ScopeOp

/-- No beginning of the run closes more scopes than it opens. -/
def Nested (ops : List ScopeOp) : Prop :=
  ∀ done, done <+: ops → done.countP ScopeOp.isPop ≤ done.countP ScopeOp.isPush

theorem Nested.of_isPrefix {ops done : List ScopeOp} (h : Nested ops) (hdone : done <+: ops) :
    Nested done :=
  fun start hstart => h start (hstart.trans hdone)

namespace Scopes

/-- The scopes after an operation. A question changes nothing. -/
def step (s : Scopes) : ScopeOp → Scopes
  | .push => s.push
  | .pop => s.pop
  | .declare symbol => (s.declare symbol).2
  | .lookup _ | .isLocal _ => s

/-- Whether an operation declares a symbol. -/
def accepts (s : Scopes) : ScopeOp → Bool
  | .declare symbol => (s.declare symbol).1
  | _ => false

/-- The scopes after a run. -/
def after (s : Scopes) (ops : List ScopeOp) : Scopes := ops.foldl step s

theorem after_append (s : Scopes) (ops more : List ScopeOp) :
    s.after (ops ++ more) = (s.after ops).after more := List.foldl_append

theorem after_concat (s : Scopes) (ops : List ScopeOp) (op : ScopeOp) :
    s.after (ops ++ [op]) = (s.after ops).step op := after_append s ops [op]

/-! ## What one operation does -/

/-- A declaration is refused if the innermost scope has the name, and else it is put there. -/
theorem declare_cases (s : Scopes) (symbol : Symbol) :
    (s.isLocal symbol.name = true ∧ s.declare symbol = (false, s)) ∨
    (s.isLocal symbol.name = false ∧
      s.declare symbol = (true, s.setInnermost (s.innermost.insert symbol))) := by
  cases h : s.isLocal symbol.name with
  | true => exact .inl ⟨rfl, declare_of_isLocal h⟩
  | false => exact .inr ⟨rfl, by simp [declare, h]⟩

theorem depth_setInnermost (s : Scopes) (scope : Scope) :
    (s.setInnermost scope).depth = s.depth := by
  unfold setInnermost depth
  cases s.inner <;> rfl

theorem depth_declare (s : Scopes) (symbol : Symbol) : (s.declare symbol).2.depth = s.depth := by
  rcases s.declare_cases symbol with ⟨-, h⟩ | ⟨-, h⟩ <;> rw [h]
  exact s.depth_setInnermost _

theorem depth_push (s : Scopes) : s.push.depth = s.depth + 1 := rfl

theorem depth_pop (s : Scopes) : s.pop.depth = s.depth - 1 := List.length_tail

/-- An operation changes the depth as it says, unless it closes the global scope. -/
theorem depth_step (s : Scopes) (op : ScopeOp)
    (h : [op].countP ScopeOp.isPop ≤ s.depth + [op].countP ScopeOp.isPush) :
    (s.step op).depth + [op].countP ScopeOp.isPop =
      s.depth + [op].countP ScopeOp.isPush := by
  cases op with
  | push => rfl
  | pop =>
    have hone : 1 ≤ s.depth := h
    change s.pop.depth + 1 = s.depth + 0
    rw [depth_pop]
    omega
  | declare symbol => exact s.depth_declare symbol
  | lookup name | isLocal name => rfl

/-- A symbol of a new name is one symbol more. -/
theorem size_setInnermost_insert {s : Scopes} {symbol : Symbol}
    (h : s.isLocal symbol.name = false) :
    (s.setInnermost (s.innermost.insert symbol)).size = s.size + 1 := by
  have hinsert := Scope.symbols_insert_of_not_contains h
  rcases s with ⟨_ | ⟨scope, rest⟩, global⟩ <;>
    simp_all [setInnermost, innermost, size, opened, Nat.add_right_comm]

theorem size_push (s : Scopes) : s.push.size = s.size := rfl

/-! ## The scopes up to a depth -/

/-- The scopes that are open at most so deep. -/
def upTo (s : Scopes) (depth : Nat) : Scopes := ⟨s.inner.drop (s.depth - depth), s.global⟩

theorem upTo_of_le (s : Scopes) {d : Nat} (hd : s.depth ≤ d) : s.upTo d = s := by
  rw [upTo, Nat.sub_eq_zero_of_le hd, List.drop_zero]

theorem upTo_push (s : Scopes) {d : Nat} (hd : d ≤ s.depth) : s.push.upTo d = s.upTo d := by
  unfold upTo
  rw [depth_push, Nat.sub_add_comm hd]
  rfl

theorem upTo_pop (s : Scopes) {d : Nat} (hd : d < s.depth) : s.pop.upTo d = s.upTo d := by
  have hdepth : s.depth - d = (s.depth - 1 - d) + 1 := by omega
  unfold upTo
  rw [depth_pop, hdepth, ← List.drop_tail]
  rfl

theorem upTo_setInnermost (s : Scopes) (scope : Scope) {d : Nat} (hd : d < s.depth) :
    (s.setInnermost scope).upTo d = s.upTo d := by
  obtain ⟨k, hk⟩ : ∃ k, s.depth - d = k + 1 := ⟨s.depth - d - 1, by omega⟩
  unfold upTo
  rw [depth_setInnermost, hk]
  rcases s with ⟨_ | ⟨first, rest⟩, global⟩
  · exact absurd hd (Nat.not_lt_zero d)
  · rfl

/-- An operation touches only the innermost scope. -/
theorem upTo_step (s : Scopes) (op : ScopeOp) {d : Nat} (hd : d < s.depth) :
    (s.step op).upTo d = s.upTo d := by
  cases op with
  | push => exact s.upTo_push (Nat.le_of_lt hd)
  | pop => exact s.upTo_pop hd
  | declare symbol =>
    rcases s.declare_cases symbol with ⟨-, h⟩ | ⟨-, h⟩ <;> simp only [step, h]
    exact s.upTo_setInnermost _ hd
  | lookup name | isLocal name => rfl

/-! ## Runs -/

/-- How deep a run ends: each scope opened counts, and each scope closed. -/
theorem depth_after (s : Scopes) {ops : List ScopeOp} (h : Nested ops) :
    (s.after ops).depth + ops.countP ScopeOp.isPop = s.depth + ops.countP ScopeOp.isPush := by
  induction ops using List.reverseRecOn with
  | nil => rfl
  | append_singleton ops op ih =>
    have hbefore := ih (h.of_isPrefix (List.prefix_append _ _))
    have hall := h _ (List.prefix_refl _)
    rw [List.countP_append, List.countP_append] at hall ⊢
    -- A run that closes a scope here has opened it, so it is not the global scope.
    have hstep := (s.after ops).depth_step op (by omega)
    rw [after_concat]
    omega

theorem depth_le_depth_after (s : Scopes) {ops : List ScopeOp} (h : Nested ops) :
    s.depth ≤ (s.after ops).depth := by
  have hdepth := s.depth_after h
  have hcount := h ops (List.prefix_refl _)
  omega

/-- A run leaves the scopes outside the one it starts in alone. -/
theorem upTo_after (s : Scopes) {ops : List ScopeOp} (h : Nested ops) {d : Nat}
    (hd : d < s.depth) : (s.after ops).upTo d = s.upTo d := by
  induction ops using List.reverseRecOn with
  | nil => rfl
  | append_singleton ops op ih =>
    have hbefore := h.of_isPrefix (List.prefix_append ops [op])
    have hdeep := s.depth_le_depth_after hbefore
    rw [after_concat, upTo_step _ _ (by omega), ih hbefore]

theorem after_pops (s : Scopes) (k : Nat) :
    s.after (List.replicate k .pop) = ⟨s.inner.drop k, s.global⟩ := by
  induction k generalizing s with
  | zero => rfl
  | succ k ih =>
    rw [List.replicate_succ]
    change s.pop.after (List.replicate k .pop) = _
    rw [ih, pop, List.drop_tail]

/-- The scopes that a run opened and left open, closed. -/
def closing (s : Scopes) (ops : List ScopeOp) : List ScopeOp :=
  List.replicate ((s.after ops).depth - s.depth) .pop

/-- Closing what a run left open, and the scope that was opened for it, brings back the start. -/
theorem after_push_closing (s : Scopes) {ops : List ScopeOp} (h : Nested ops) :
    s.after (.push :: ops ++ s.closing (.push :: ops)) = s := by
  have hrun : s.after (.push :: ops) = s.push.after ops := rfl
  have hpushed : s.push.upTo s.depth = s.upTo s.depth := s.upTo_push (Nat.le_refl _)
  rw [after_append, closing, after_pops, hrun]
  change (s.push.after ops).upTo s.depth = s
  rw [upTo_after _ h (by rw [depth_push]; omega), hpushed, upTo_of_le _ (Nat.le_refl _)]

/-! ## Declarations that are still in scope -/

/-- How deep a run is after so many of its operations. -/
def depthAt (s : Scopes) (ops : List ScopeOp) (i : Nat) : Nat := (s.after (ops.take i)).depth

/-- Whether the operation at a place of a run declared a symbol that is still in scope: it was
accepted there, and from there on the run was never less deep. -/
def inScope (s : Scopes) (ops : List ScopeOp) (i : Nat) : Bool :=
  match ops[i]? with
  | some op =>
    (s.after (ops.take i)).accepts op &&
      (List.range (ops.length + 1)).all fun j => j < i || s.depthAt ops i ≤ s.depthAt ops j
  | none => false

/-- How many declarations of a run were accepted and are still in scope. -/
def declared (s : Scopes) (ops : List ScopeOp) : Nat :=
  (List.range ops.length).countP (s.inScope ops)

theorem depthAt_concat (s : Scopes) (ops : List ScopeOp) (op : ScopeOp) {i : Nat}
    (hi : i ≤ ops.length) : s.depthAt (ops ++ [op]) i = s.depthAt ops i := by
  rw [depthAt, List.take_append_of_le_length hi, depthAt]

theorem depthAt_length (s : Scopes) (ops : List ScopeOp) :
    s.depthAt ops ops.length = (s.after ops).depth := by
  rw [depthAt, List.take_length]

/-- A declaration stays in scope as long as the run does not become less deep. -/
theorem inScope_concat (s : Scopes) (ops : List ScopeOp) (op : ScopeOp) {i : Nat}
    (hi : i < ops.length) :
    s.inScope (ops ++ [op]) i =
      (s.inScope ops i && decide (s.depthAt ops i ≤ (s.after (ops ++ [op])).depth)) := by
  have hrange : (List.range ((ops ++ [op]).length + 1)).all
      (fun j => j < i || s.depthAt (ops ++ [op]) i ≤ s.depthAt (ops ++ [op]) j) =
      ((List.range (ops.length + 1)).all (fun j => j < i || s.depthAt ops i ≤ s.depthAt ops j) &&
        decide (s.depthAt ops i ≤ (s.after (ops ++ [op])).depth)) := by
    rw [List.length_append, List.length_singleton, List.range_succ, List.all_append]
    congr 1
    · rw [Bool.eq_iff_iff, List.all_eq_true, List.all_eq_true]
      refine forall₂_congr fun j hj => ?_
      have hj' : j ≤ ops.length := Nat.lt_succ_iff.mp (List.mem_range.mp hj)
      rw [depthAt_concat s ops op (Nat.le_of_lt hi), depthAt_concat s ops op hj']
    · have hend : s.depthAt (ops ++ [op]) (ops.length + 1) = (s.after (ops ++ [op])).depth := by
        rw [← depthAt_length, List.length_append, List.length_singleton]
      have hlate : ¬ ops.length + 1 < i := by omega
      simp [depthAt_concat s ops op (Nat.le_of_lt hi), hend, hlate]
  unfold inScope
  rw [List.getElem?_append_left hi, List.take_append_of_le_length (Nat.le_of_lt hi), hrange]
  cases ops[i]? with
  | none => rfl
  | some found => exact (Bool.and_assoc _ _ _).symm

/-- What the last operation of a run declares is in scope. -/
theorem inScope_last (s : Scopes) (ops : List ScopeOp) (op : ScopeOp) :
    s.inScope (ops ++ [op]) ops.length = (s.after ops).accepts op := by
  unfold inScope
  rw [List.getElem?_concat_length, List.take_left]
  cases op with
  | declare symbol =>
    have hopen : ∀ j ∈ List.range ((ops ++ [ScopeOp.declare symbol]).length + 1),
        (decide (j < ops.length) || decide (s.depthAt (ops ++ [.declare symbol]) ops.length ≤
          s.depthAt (ops ++ [.declare symbol]) j)) = true := by
      intro j hj
      rw [List.mem_range, List.length_append, List.length_singleton] at hj
      have hend : s.depthAt (ops ++ [.declare symbol]) (ops.length + 1) = (s.after ops).depth := by
        rw [depthAt, List.take_of_length_le (by simp), after_concat]
        exact depth_declare _ symbol
      rw [depthAt_concat s ops _ (Nat.le_refl _), depthAt_length]
      rcases (by omega : j < ops.length ∨ j = ops.length ∨ j = ops.length + 1) with h | rfl | rfl
      · simp [h]
      · simp [depthAt_concat s ops _ (Nat.le_refl _), depthAt_length]
      · simp [hend]
    simp only [List.all_eq_true.mpr hopen, Bool.and_true]
  | _ => rfl

/-- An operation that declares a symbol makes the innermost scope larger by one. -/
theorem size_upTo_step (s : Scopes) (op : ScopeOp) (d : Nat) :
    ((s.step op).upTo d).size = (s.upTo (min d (s.step op).depth)).size +
      if (s.accepts op && decide (s.depth ≤ d)) = true then 1 else 0 := by
  by_cases hd : d < s.depth
  · have hnot : ¬ s.depth ≤ d := Nat.not_le_of_lt hd
    have hdeep : d ≤ (s.step op).depth := by
      cases op with
      | push => exact Nat.le_succ_of_le (Nat.le_of_lt hd)
      | pop => exact Nat.le_sub_one_of_lt hd |>.trans_eq s.depth_pop.symm
      | declare symbol => exact (Nat.le_of_lt hd).trans_eq (s.depth_declare symbol).symm
      | lookup name | isLocal name => exact Nat.le_of_lt hd
    rw [upTo_step s op hd, Nat.min_eq_left hdeep]
    simp [hnot]
  · have hle : s.depth ≤ d := Nat.le_of_not_lt hd
    cases op with
    | push =>
      have hwhole : (s.push.upTo d).size = s.size := by
        rcases Nat.eq_or_lt_of_le hle with rfl | hlt
        · rw [upTo_push s (Nat.le_refl _), upTo_of_le s (Nat.le_refl _)]
        · rw [upTo_of_le s.push hlt, size_push]
      have hdepth : s.depth ≤ min d s.push.depth := by rw [depth_push]; omega
      simp [step, accepts, hwhole, upTo_of_le s hdepth]
    | pop =>
      have hclosed : s.upTo (s.depth - 1) = s.pop := by
        rcases s with ⟨_ | ⟨scope, rest⟩, global⟩
        · rfl
        · simp [upTo, depth, pop]
      have hdepth : s.pop.depth ≤ d := by rw [depth_pop]; omega
      have hmin : min d s.pop.depth = s.depth - 1 := by rw [Nat.min_eq_right hdepth, depth_pop]
      simp [step, accepts, upTo_of_le s.pop hdepth, hmin, hclosed]
    | declare symbol =>
      have hdepth : (s.declare symbol).2.depth ≤ d := by rwa [depth_declare]
      have hinner : s.upTo (min d (s.declare symbol).2.depth) = s := by
        rw [Nat.min_eq_right hdepth, depth_declare, upTo_of_le s (Nat.le_refl _)]
      simp only [step, accepts, upTo_of_le _ hdepth, hinner, hle]
      rcases s.declare_cases symbol with ⟨-, h⟩ | ⟨hnew, h⟩ <;> rw [h]
      · rfl
      · exact size_setInnermost_insert hnew
    | lookup name | isLocal name =>
      have hinner : s.upTo (min d s.depth) = s := s.upTo_of_le (Nat.le_min.mpr ⟨hle, Nat.le_refl _⟩)
      simp [step, accepts, upTo_of_le s hle, hinner]

theorem depthAt_le_of_inScope {s : Scopes} {ops : List ScopeOp} {i : Nat} (hi : i < ops.length)
    (h : s.inScope ops i = true) : s.depthAt ops i ≤ (s.after ops).depth := by
  unfold inScope at h
  split at h
  · rw [Bool.and_eq_true, List.all_eq_true] at h
    have hend := h.2 ops.length (List.mem_range.mpr (Nat.lt_succ_self _))
    rw [depthAt_length] at hend
    simpa [Nat.not_lt_of_lt hi] using hend
  · cases h

/-- Up to a depth, a run has made the scopes larger by the declarations that are still in scope and
were made at most so deep. -/
theorem size_upTo_after (s : Scopes) {ops : List ScopeOp} (h : Nested ops) {d : Nat}
    (hd : s.depth ≤ d) :
    ((s.after ops).upTo d).size = s.size + (List.range ops.length).countP
      fun i => s.inScope ops i && decide (s.depthAt ops i ≤ d) := by
  induction ops using List.reverseRecOn generalizing d with
  | nil => exact congrArg size (s.upTo_of_le hd)
  | append_singleton ops op ih =>
    have hdeep : s.depth ≤ min d (s.after (ops ++ [op])).depth :=
      Nat.le_min.mpr ⟨hd, s.depth_le_depth_after h⟩
    have hbefore := ih (h.of_isPrefix (List.prefix_append ops [op])) hdeep
    -- Of what was in scope before the last operation, what is as deep as the run is now stays.
    have hold : (List.range ops.length).countP
        (fun i => s.inScope (ops ++ [op]) i && decide (s.depthAt (ops ++ [op]) i ≤ d)) =
        (List.range ops.length).countP (fun i => s.inScope ops i &&
          decide (s.depthAt ops i ≤ min d (s.after (ops ++ [op])).depth)) := by
      refine List.countP_congr fun i hi => ?_
      rw [List.mem_range] at hi
      rw [inScope_concat s ops op hi, depthAt_concat s ops op (Nat.le_of_lt hi)]
      simp only [Bool.and_eq_true, decide_eq_true_eq, Nat.le_min]
      tauto
    rw [List.length_append, List.length_singleton, List.range_succ, List.countP_append, hold,
      List.countP_singleton, inScope_last, depthAt_concat s ops op (Nat.le_refl _), depthAt_length,
      ← Nat.add_assoc, ← hbefore, after_concat, size_upTo_step]

theorem size_after (s : Scopes) {ops : List ScopeOp} (h : Nested ops) :
    (s.after ops).size = s.size + s.declared ops := by
  have hsize := s.size_upTo_after h (s.depth_le_depth_after h)
  rw [upTo_of_le _ (Nat.le_refl _)] at hsize
  rw [hsize, declared]
  congr 1
  refine List.countP_congr fun i hi => ?_
  rw [List.mem_range] at hi
  rw [Bool.and_eq_true, decide_eq_true_eq]
  exact and_iff_left_of_imp (depthAt_le_of_inScope hi)

/-! ## Answers -/

/-- The symbol stands for the name in the innermost of the scopes that declare it. -/
def InnermostHas (s : Scopes) (name : String) (symbol : Symbol) : Prop :=
  ∃ inside scope outside, s.opened = inside ++ scope :: outside ∧
    (∀ other ∈ inside, ∀ hidden ∈ other, hidden.name ≠ name) ∧ symbol ∈ scope ∧ symbol.name = name

/-- The innermost scope declares the name. -/
def LocallyHas (s : Scopes) (name : String) : Prop :=
  ∃ scope outside, s.opened = scope :: outside ∧ ∃ symbol ∈ scope, symbol.name = name

theorem lookup?_eq_some_iff (s : Scopes) (name : String) (symbol : Symbol) :
    s.lookup? name = some symbol ↔ s.InnermostHas name symbol := by
  unfold lookup? InnermostHas
  simp only [List.findSome?_eq_some_iff, Scope.find?_eq_some_iff, Scope.find?_eq_none_iff]
  constructor
  · rintro ⟨inside, scope, outside, hsplit, hscope, hinside⟩
    exact ⟨inside, scope, outside, hsplit, hinside, hscope⟩
  · rintro ⟨inside, scope, outside, hsplit, hinside, hscope⟩
    exact ⟨inside, scope, outside, hsplit, hscope, hinside⟩

/-- Declarations go to the first of the open scopes and leave the others alone. -/
theorem opened_eq_cons (s : Scopes) : ∃ outside, s.opened = s.innermost :: outside ∧
    ∀ scope, (s.setInnermost scope).opened = scope :: outside := by
  rcases s with ⟨_ | ⟨scope, rest⟩, global⟩
  · exact ⟨[], rfl, fun _ => rfl⟩
  · exact ⟨rest ++ [global], rfl, fun _ => rfl⟩

theorem isLocal_iff (s : Scopes) (name : String) : s.isLocal name = true ↔ s.LocallyHas name := by
  obtain ⟨outside, hopened, -⟩ := s.opened_eq_cons
  rw [isLocal, Scope.contains_iff, LocallyHas, hopened]
  constructor
  · intro h
    exact ⟨s.innermost, outside, rfl, h⟩
  · rintro ⟨scope, _, hcons, h⟩
    cases hcons
    exact h

theorem declare_fst_eq_false_iff (s : Scopes) (symbol : Symbol) :
    (s.declare symbol).1 = false ↔ s.LocallyHas symbol.name := by
  rw [← isLocal_iff]
  rcases s.declare_cases symbol with ⟨hlocal, h⟩ | ⟨hlocal, h⟩ <;> simp [h, hlocal]

/-- A declaration that is refused changes nothing, and one that is accepted is no refusal. -/
theorem declare_eq_refused_iff (s : Scopes) (symbol : Symbol) :
    s.declare symbol = (false, s) ↔ s.LocallyHas symbol.name := by
  rw [← isLocal_iff]
  rcases s.declare_cases symbol with ⟨hlocal, h⟩ | ⟨hlocal, h⟩ <;> simp [h, hlocal]

/-- After a declaration was accepted, its name stands for its symbol, and every other name for what
it stood for before. -/
theorem lookup?_declare {s : Scopes} {symbol : Symbol} (h : (s.declare symbol).1 = true)
    (name : String) : (s.declare symbol).2.lookup? name =
      if symbol.name = name then some symbol else s.lookup? name := by
  obtain ⟨-, hdeclare⟩ := (s.declare_cases symbol).resolve_left fun ⟨_, hrefused⟩ => by
    rw [hrefused] at h
    cases h
  obtain ⟨outside, hopened, hothers⟩ := s.opened_eq_cons
  rw [hdeclare, lookup?, lookup?, hopened, hothers, List.findSome?_cons, List.findSome?_cons,
    Scope.find?_insert]
  by_cases hname : symbol.name = name
  · rw [if_pos hname, if_pos hname]
  · rw [if_neg hname, if_neg hname]

/-! ## Whole runs -/

theorem nested_push_closing (s : Scopes) {ops : List ScopeOp} (h : Nested ops) :
    Nested (.push :: ops ++ s.closing (.push :: ops)) := by
  have hpushed : Nested (.push :: ops) := by
    intro done hdone
    rcases List.prefix_cons_iff.mp hdone with rfl | ⟨rest, rfl, hrest⟩
    · exact Nat.le_refl _
    · have hrest := h rest hrest
      simp only [List.countP_cons, ScopeOp.isPush, ScopeOp.isPop]
      simp only [Bool.false_eq_true, if_false, if_true]
      omega
  intro done hdone
  rcases List.prefix_or_prefix_of_prefix hdone (List.prefix_append (.push :: ops) _) with
    hdone | ⟨rest, rfl⟩
  · exact hpushed done hdone
  · -- No more scopes are closed in the end than the run has left open.
    have hrest : rest.countP ScopeOp.isPop ≤ (s.after (.push :: ops)).depth - s.depth := by
      have hlength := ((List.prefix_append_right_inj _).mp hdone).length_le
      rw [closing, List.length_replicate] at hlength
      exact List.countP_le_length.trans hlength
    have hdepth := s.depth_after hpushed
    have hcount := hpushed _ (List.prefix_refl _)
    rw [List.countP_append, List.countP_append]
    omega

/-- Open a scope, do anything that never closes more scopes than it opened, and close what is left
open: the scopes are as they were, so every question is answered as before. At every point on the
way a name stands for the symbol of the innermost scope that declares it, a declaration is refused
without a change if and only if the innermost scope has the name, and an accepted one gives its name
its symbol and no other name another. The number of symbols is that of the start and of the accepted
declarations that are still in scope. -/
theorem nested_run_restores (s : Scopes) {ops : List ScopeOp} (h : Nested ops) :
    s.after (.push :: ops ++ s.closing (.push :: ops)) = s ∧
    ∀ done, done <+: .push :: ops ++ s.closing (.push :: ops) →
      (∀ name symbol, (s.after done).lookup? name = some symbol ↔
        (s.after done).InnermostHas name symbol) ∧
      (∀ name, (s.after done).isLocal name = true ↔ (s.after done).LocallyHas name) ∧
      (∀ symbol, (s.after done).declare symbol = (false, s.after done) ↔
        (s.after done).LocallyHas symbol.name) ∧
      (∀ symbol, ((s.after done).declare symbol).1 = false ↔
        (s.after done).LocallyHas symbol.name) ∧
      (∀ symbol, ((s.after done).declare symbol).1 = true →
        ∀ name, ((s.after done).declare symbol).2.lookup? name =
          if symbol.name = name then some symbol else (s.after done).lookup? name) ∧
      (s.after done).size = s.size + s.declared done := by
  refine ⟨s.after_push_closing h, fun done hdone => ?_⟩
  have hnested := (s.nested_push_closing h).of_isPrefix hdone
  exact ⟨lookup?_eq_some_iff _, isLocal_iff _, declare_eq_refused_iff _,
    declare_fst_eq_false_iff _, fun _ => lookup?_declare, s.size_after hnested⟩

/-- A variable of a type. -/
def variableOf (name : String) (ty : Ty) : Symbol := ⟨name, .value, ty, false, false, .none⟩

/-- A built-in name is declared again twice in one scope and once in the scope inside it. -/
def shadowing : List ScopeOp :=
  [.declare (variableOf "len" .int), .declare (variableOf "len" .bool), .push,
    .declare (variableOf "len" .string), .declare (variableOf "n" .int), .pop, .push,
    .lookup "len", .declare (variableOf "m" .int)]

/-- In the scope inside, the name has its third meaning, and after that scope the first one again.
The second declaration was refused, and in the end the name is the built-in. -/
theorem nested_run_restores_shadowing :
    Nested shadowing ∧
    withBuiltins.after (.push :: shadowing ++ withBuiltins.closing (.push :: shadowing)) =
      withBuiltins ∧
    withBuiltins.InnermostHas "len" (builtin "len") ∧
    (withBuiltins.after (.push :: shadowing.take 5)).InnermostHas "len" (variableOf "len" .string) ∧
    (withBuiltins.after (.push :: shadowing)).lookup? "len" = some (variableOf "len" .int) ∧
    (withBuiltins.after (.push :: shadowing)).InnermostHas "len" (variableOf "len" .int) ∧
    (withBuiltins.after (.push :: shadowing)).size = 7 := by
  have hnested : Nested shadowing := fun done hdone =>
    (by decide : ∀ done ∈ shadowing.inits,
      done.countP ScopeOp.isPop ≤ done.countP ScopeOp.isPush) done ((List.mem_inits _ _).mpr hdone)
  obtain ⟨hback, hpoints⟩ := nested_run_restores withBuiltins hnested
  have hinside : .push :: shadowing.take 5 <+:
      .push :: shadowing ++ withBuiltins.closing (.push :: shadowing) :=
    List.cons_prefix_cons.mpr ⟨rfl, (List.take_prefix 5 _).trans (List.prefix_append _ _)⟩
  obtain ⟨hstart, -⟩ := hpoints [] List.nil_prefix
  obtain ⟨hmiddle, -⟩ := hpoints _ hinside
  obtain ⟨hend, -, -, -, -, hsize⟩ := hpoints _ (List.prefix_append _ _)
  exact ⟨hnested, hback, (hstart _ _).mp rfl, (hmiddle _ _).mp rfl, rfl, (hend _ _).mp rfl,
    hsize.trans rfl⟩

end Scopes

end BytecodeCompiler
