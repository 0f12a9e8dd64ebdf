import BytecodeCompiler.Proofs.Lower.Flat
import BytecodeCompiler.Proofs.Tree.Parents

-- Lowering with scopes. Lowering finds the loop that a break leaves by climbing the links of the
-- tree, and looks up where that loop ends in a table of all loops that were lowered so far. Here
-- the end of the innermost loop is handed down instead, to what is lowered inside the block of the
-- loop. The two make the same code, so a break always jumps to the end of the loop that it stands
-- in, from inside the block of that loop.

namespace BytecodeCompiler

open Lower

/-! ## Lowering with scopes -/

/-- Whether the node makes a function, makes a loop or leaves one. -/
def NodeKind.isScoping : NodeKind → Bool
  | .lambda _ | .func .. | .forIf .. | .forIn .. | .breakLoop => true
  | _ => false

/-- A block or a chain is no loop, no function and not shared. -/
theorem NodeKind.plain_of_isBlock_or_isChain {kind : NodeKind}
    (h : kind.isBlock = true ∨ kind.isChain = true) :
    kind.isLoop = false ∧ kind.isLambda = false ∧ kind.isShared = false := by
  cases kind with
  | block | ifChain => exact ⟨rfl, rfl, rfl⟩
  | _ => rcases h with h | h <;> cases h

namespace Nested

variable {σ : Type}

/-- A walk that is told where the innermost loop in the same function ends. -/
abbrev Walk (σ : Type) := Option Ident → Lower.Walk σ

/-- A break jumps to the end of the innermost loop. -/
def leave (scope : Option Ident) (n : Node) : Lower σ Unit :=
  match scope with
  | some finish => push (.jump finish n.span)
  | none => throw (.breakOutsideLoop n.span)

variable [NameSupply σ]

/-- A loop is one block. Inside, its own end is the innermost one. -/
def loop (n : Node) (inside : LoopLabels → Lower σ Unit) : Lower σ Unit := do
  let top ← fresh
  let finish ← fresh
  let is ← inBlock (inside ⟨top, finish⟩)
  push (.block is n.span)

def forIf (t : Tree) (walk : Walk σ) (n : Node) (sets : Option NodeId) (conds : List NodeId)
    (block : NodeId) : Lower σ Unit :=
  loop n fun labels =>
    round t (walk (some labels.finish)) n (pure ()) sets.toList (fun _ => pure ()) conds block
      labels

def forIn (t : Tree) (walk : Walk σ) (n : Node) (key value : Option NodeId)
    (expr block : NodeId) : Lower σ Unit := do
  let keyTarget ← loopTarget? t key
  let valueTarget ← loopTarget? t value
  loop n fun labels =>
    round t (walk (some labels.finish)) n (startElements t (walk (some labels.finish)) n expr)
      (key.toList ++ value.toList) (eachElement n.span keyTarget valueTarget) [] block labels

/-- Lower a node by the rule of its kind. A function starts outside of all loops, a loop starts a
scope, and everything else hands its scope down. -/
def rule (t : Tree) (walk : Walk σ) (scope : Option Ident) (id : NodeId) :
    Lower σ (Option Instr) := do
  let n ← nodeAt t id
  match n.kind with
  | .lambda body => expression (lambda t (walk none) n body)
  | .func isPub name function => statement (func t (walk none) n isPub name function)
  | .forIf sets conds body => statement (forIf t walk n sets conds body)
  | .forIn key value expr body => statement (forIn t walk n key value expr body)
  | .breakLoop => statement (leave scope n)
  | _ => Lower.rule t (walk scope) id

/-- Lower a node that is nowhere more than so many steps deep. -/
def within (t : Tree) : (steps : Nat) → Walk σ
  | 0, _, id => throw (.cyclicTree id)
  | steps + 1, scope, id => rule t (within t steps) scope id

/-- Lower the declarations of a file node, outside of all loops. -/
def root (t : Tree) (id : NodeId) : Lower σ Unit := do
  file (within t (enough t) none) (← nodeAt t id)

theorem rule_eq {t : Tree} {walk : Walk σ} {scope : Option Ident} {id : NodeId} {n : Node}
    (hn : t.node? id = some n) (hkind : n.kind.isScoping = false) :
    rule t walk scope id = Lower.rule t (walk scope) id := by
  rw [rule, nodeAt_eq hn, pure_bind]
  rcases n with ⟨kind, span, parent, info⟩
  cases kind with
  | lambda | func | forIf | forIn | breakLoop => cases hkind
  | _ => rfl

end Nested

namespace Lower

variable {σ : Type}

/-! ## Lowering next to lowering with scopes -/

/-- In the state, the loops from a number on end where the table says. -/
def EndsFrom (bound : Nat) (table : NodeId → Option Ident) (s : LowerState σ) : Prop :=
  ∀ l : Nat, bound ≤ l → s.loopEnds.lookup l = table l

/-- Lowering next to a lowering that notes no loops. The loops from a number on keep their ends. -/
def lexical (bound : Nat) (table : NodeId → Option Ident) : Pairing σ σ where
  step rel m m' := ∀ s x s₁, EndsFrom bound table s → m s = .ok x s₁ →
    EndsFrom bound table s₁ ∧ ∃ y, rel x y ∧ m' s.forgetLoops = .ok y s₁.forgetLoops
  accepts _ := True
  spans _ := True
  faults _ := True
  step_pure h s x s₁ hs hrun := by
    cases hrun
    exact ⟨hs, _, h, rfl⟩
  step_throw _ s x s₁ hs hrun := by cases hrun
  step_bind hm hf s x s₁ hs hrun := by
    obtain ⟨y, s₂, hfirst, hlast⟩ := bind_eq_ok hrun
    obtain ⟨hs₂, y', hrel, hfirst'⟩ := hm s y s₂ hs hfirst
    obtain ⟨hs₁, z, hrel', hlast'⟩ := hf y y' hrel s₂ x s₁ hs₂ hlast
    exact ⟨hs₁, z, hrel', (bind_of_ok hfirst').trans hlast'⟩
  step_push _ _ _ s x s₁ hs hrun := by
    cases hrun
    exact ⟨hs, _, ⟨rfl, trivial⟩, rfl⟩
  step_isProcessed id flag s x s₁ hs hrun := by
    cases hrun
    exact ⟨hs, _, ⟨rfl, trivial⟩, rfl⟩
  step_markProcessed id s x s₁ hs hrun := by
    cases hrun
    exact ⟨hs, _, ⟨rfl, trivial⟩, rfl⟩
  spans_none := trivial
  accepts_value _ _ _ := trivial
  accepts_wrapped _ _ _ _ := trivial
  accepts_iterable _ _ _ _ := trivial

section Lexical

variable {bound : Nat} {table : NodeId → Option Ident}

theorem lexical_covers (t : Tree) : (lexical (σ := σ) bound table).Covers t where
  faults _ := trivial
  spans _ := trivial

theorem lexical_fits (t : Tree) (id : NodeId) : (lexical (σ := σ) bound table).Fits t id :=
  (lexical_covers t).fits id

theorem lexical_granted (needed : Prop) : (lexical (σ := σ) bound table).Granted needed :=
  (lexical_covers .empty).granted needed

theorem lexical_push (i : Instr) :
    (lexical (σ := σ) bound table).step (Same fun _ => True) (push i) (push i) := by
  intro s x s₁ hs hrun
  cases hrun
  exact ⟨hs, _, ⟨rfl, trivial⟩, rfl⟩

theorem lexical_inBlock {m m' : Lower σ Unit}
    (h : (lexical bound table).step (Same fun _ => True) m m') :
    (lexical bound table).step Eq (inBlock m) (inBlock m') := by
  rintro ⟨names, loopEnds, processed, out⟩ x s₁ hs hrun
  simp only [inBlock] at hrun
  split at hrun
  · rename_i a s₂ hinside
    cases hrun
    obtain ⟨hs₂, y, -, hinside'⟩ := h _ _ _ (show EndsFrom bound table ⟨names, _, _, #[]⟩ from hs)
      hinside
    refine ⟨hs₂, _, rfl, ?_⟩
    simp only [LowerState.forgetLoops] at hinside'
    simp only [LowerState.forgetLoops, inBlock, hinside']
  · cases hrun

/-- The two lowerings use the same labels and make the same blocks. -/
def lexicalControl (bound : Nat) (table : NodeId → Option Ident) :
    (lexical (σ := σ) bound table).Control where
  label := Eq
  row := Eq
  step_inBlock := lexical_inBlock
  push_block _ h := h ▸ lexical_push _
  push_label _ h := h ▸ lexical_push _
  push_jump _ h := h ▸ lexical_push _
  push_compareJump _ _ _ h := h ▸ lexical_push _

theorem lexical_takesBodies : (lexical (σ := σ) bound table).TakesBodies Eq :=
  fun _ _ _ h => h ▸ lexical_push _

theorem lexical_fresh [NameSupply σ] :
    (lexical (σ := σ) bound table).step Eq fresh fresh := by
  rintro ⟨names, loopEnds, processed, out⟩ l s₁ hs hrun
  simp only [fresh] at hrun
  split at hrun
  · rename_i name names' hfresh
    cases hrun
    exact ⟨hs, _, rfl, by simp only [LowerState.forgetLoops, fresh, hfresh]⟩
  · cases hrun

/-- Once a loop is noted, its end is in the table for all that is lowered inside. -/
theorem lexical_noteLoop {α β : Type} {rel : α → β → Prop} {id : Nat} {finish : Ident}
    {m : Lower σ α} {m' : Lower σ β}
    (h : (lexical id (Function.update table id (some finish))).step rel m m') :
    (lexical (id + 1) table).step rel (do noteLoop id finish; m) m' := by
  intro s x s₁ hs hrun
  obtain ⟨_, s₂, hnote, hrest⟩ := bind_eq_ok hrun
  cases hnote
  have hs₂ : EndsFrom id (Function.update table id (some finish))
      ⟨s.names, (id, finish) :: s.loopEnds, s.processed, s.out⟩ := by
    intro l hl
    by_cases hid : l = id
    · subst hid
      simp
    · rw [Function.update_of_ne hid, ← hs l (by omega), List.lookup_cons, beq_false_of_ne hid]
  obtain ⟨hs₁, y, hrel, hrest'⟩ := h _ x s₁ hs₂ hrest
  refine ⟨fun l hl => ?_, y, hrel, hrest'⟩
  have hne : l ≠ id := by omega
  rw [hs₁ l (by omega), Function.update_of_ne hne]

end Lexical

/-! ## The walks agree -/

theorem none_of_statement {m : Lower σ Unit} {s s₁ : LowerState σ} {r : Option Instr}
    (h : statement m s = .ok r s₁) : r = none := by
  obtain ⟨_, _, -, hpure⟩ := bind_eq_ok h
  cases hpure
  rfl

variable [NameSupply σ] {t : Tree} {id : NodeId}

/-- Only an expression gives an operand. -/
theorem none_of_rule {walk : Walk σ} {n : Node} (hn : t.node? id = some n)
    (hkind : n.kind.isExpression = false) {s s₁ : LowerState σ} {r : Option Instr}
    (h : rule t walk id s = .ok r s₁) : r = none := by
  rw [rule, nodeAt_eq hn, pure_bind] at h
  rcases n with ⟨kind, span, parent, info⟩
  cases kind with
  | literal | ident | lambda | tuple | struct | structAttr | array | index | call | dot | spread
  | shared | cast | ternary | binary | unary => cases hkind
  | _ => exact none_of_statement h

/-- A shared expression always gives an operand. -/
theorem not_shared_of_none {walk : Walk σ} {s s₁ : LowerState σ}
    (h : rule t walk id s = .ok none s₁) : ¬ t.Is NodeKind.isShared id := by
  intro hshared
  obtain ⟨n, hn, hkind⟩ := Tree.exists_node_of_is hshared
  rw [rule, nodeAt_eq hn, pure_bind] at h
  rcases n with ⟨kind, span, parent, info⟩
  cases kind with
  | shared expr flag => cases isSome_of_expression h
  | _ => cases hkind

/-- Lowering with scopes follows lowering on a node. Loops behind the node keep their ends. The
scope only matters if the node gives nothing, and then it has to be the end of the loop around. -/
def Follows (t : Tree) (walk : Walk σ) (nested : Nested.Walk σ) (id : Nat) : Prop :=
  ∀ s r s₁, walk id s = .ok r s₁ →
    (r = none → ¬ t.Is NodeKind.isShared id) ∧
    (∀ l : Nat, id < l → s₁.loopEnds.lookup l = s.loopEnds.lookup l) ∧
    ∀ scope, (r = none → scope = (t.loopAbove id).bind fun l => s.loopEnds.lookup l) →
      nested scope id s.forgetLoops = .ok r s₁.forgetLoops

section Follows

variable {walk : Walk σ} {nested : Nested.Walk σ} {bound : Nat} {table : NodeId → Option Ident}
  {c : Nat}

omit [NameSupply σ] in
theorem Follows.visit (h : Follows t walk nested c) (hlt : c < bound) {scope : Option Ident}
    (hscope : ¬ t.Is NodeKind.isShared c → scope = (t.loopAbove c).bind table)
    (habove : ¬ t.Is NodeKind.isShared c → ∀ l : Nat, t.loopAbove c = some l → bound ≤ l) :
    (lexical bound table).Visit walk (nested scope) c := by
  intro s r s₁ hs hrun
  obtain ⟨hshared, hkept, hnested⟩ := h s r s₁ hrun
  have hs₁ : EndsFrom bound table s₁ :=
    fun l hl => (hkept l (Nat.lt_of_lt_of_le hlt hl)).trans (hs l hl)
  refine ⟨hs₁, r, ⟨rfl, fun _ _ => trivial⟩, hnested scope fun hnone => ?_⟩
  rw [hscope (hshared hnone)]
  cases hloop : t.loopAbove c with
  | none => rfl
  | some l => exact (hs l (habove (hshared hnone) l hloop)).symm

omit [NameSupply σ] in
/-- Where an operand is needed, the scope does not matter. -/
theorem Follows.value (h : Follows t walk nested c) (hlt : c < bound) (scope : Option Ident) :
    (lexical bound table).Value t walk (nested scope) c := by
  intro s x s₁ hs hrun
  obtain ⟨r, s₂, hfirst, hrest⟩ := bind_eq_ok hrun
  cases r with
  | none =>
    obtain ⟨_, _, -, hthrow⟩ := bind_eq_ok hrest
    cases hthrow
  | some i =>
    cases hrest
    obtain ⟨-, hkept, hnested⟩ := h s (some x) s₁ hfirst
    have hs₁ : EndsFrom bound table s₁ :=
      fun l hl => (hkept l (Nat.lt_of_lt_of_le hlt hl)).trans (hs l hl)
    exact ⟨hs₁, x, ⟨rfl, trivial⟩, bind_of_ok (hnested scope fun hnone => nomatch hnone)⟩

end Follows

/-! ## One rule -/

section Rule

variable {walk : Walk σ} {nested : Nested.Walk σ} (ht : t.Forest)
  (hfollows : ∀ c, Follows t walk nested c) {table : NodeId → Option Ident} {scope : Option Ident}

include ht hfollows

omit [NameSupply σ] in
/-- A child of a node that is neither a loop nor a function stands in the same loop. -/
theorem visit_inside {x c bound : Nat} {m : Node} (hm : t.node? x = some m)
    (hloop : m.kind.isLoop = false) (hlambda : m.kind.isLambda = false) (hx : x < bound)
    (hscope : scope = (t.loopAbove x).bind table)
    (habove : ∀ l : Nat, t.loopAbove x = some l → bound ≤ l) (hc : t.IsChild x c) :
    (lexical bound table).Visit walk (nested scope) c := by
  have hsame : ¬ t.Is NodeKind.isShared c → t.loopAbove c = t.loopAbove x := by
    intro hshared
    rw [ht.loopAbove_child hm hc hshared, hloop, hlambda]
    rfl
  have hlt : c < x := ht.ordered hc
  apply (hfollows c).visit (by omega)
  · intro hshared
    rw [hsame hshared, hscope]
  · intro hshared
    rw [hsame hshared]
    exact habove

omit [NameSupply σ] in
/-- The body of a function starts outside of all loops. -/
theorem step_functionBody {x b bound : Nat} (hx : t.Is NodeKind.isLambda x) (hlt : x < bound)
    (hb : t.IsChild x b) :
    (lexical bound table).step Eq (body t walk b) (body t (nested none) b) := by
  apply (lexicalControl bound table).step_body (lexical_fits t b) (lexical_granted _)
  intro hblock c hc
  obtain ⟨m, hm, hmkind⟩ := Tree.exists_node_of_is hblock
  obtain ⟨f, hf, hlambda⟩ := Tree.exists_node_of_is hx
  obtain ⟨hnoLoop, hnoLambda, hnoShared⟩ := NodeKind.plain_of_isBlock_or_isChain (.inl hmkind)
  have hnotLoop : f.kind.isLoop = false := by
    cases hk : f.kind with
    | lambda block => rfl
    | _ => rw [hk] at hlambda; cases hlambda
  have hnone : t.loopAbove b = none := by
    have hshared : ¬ t.Is NodeKind.isShared b := by simp [Tree.is_iff hm, hnoShared]
    rw [ht.loopAbove_child hf hb hshared, hnotLoop, hlambda]
    rfl
  have hlt' : b < x := ht.ordered hb
  apply visit_inside ht hfollows hm hnoLoop hnoLambda (by omega) _ _ hc
  · rw [hnone]
    rfl
  · intro l hl
    rw [hnone] at hl
    cases hl

omit [NameSupply σ] in
/-- What stands in a loop stands in no other loop further in. -/
theorem visit_round {n : Node} {c : Nat} {finish : Ident} (hn : t.node? id = some n)
    (hloop : n.kind.isLoop = true) (hc : t.IsChild id c) :
    (lexical id (Function.update table id (some finish))).Visit walk (nested (some finish)) c := by
  have hsame : ¬ t.Is NodeKind.isShared c → t.loopAbove c = some id := by
    intro hshared
    rw [ht.loopAbove_child hn hc hshared, hloop]
    rfl
  apply (hfollows c).visit (ht.ordered hc)
  · intro hshared
    simp [hsame hshared]
  · intro hshared l hl
    rw [hsame hshared] at hl
    cases hl
    exact Nat.le_refl _

omit [NameSupply σ] in
theorem value_round {n : Node} {c : Nat} {finish : Ident} (hn : t.node? id = some n)
    (hc : c ∈ n.kind.children) :
    (lexical id (Function.update table id (some finish))).Value t walk (nested (some finish)) c :=
  (hfollows c).value (ht.ordered ⟨n, hn, hc⟩) _

omit ht hfollows in
/-- A loop goes with a loop with scopes if their rounds do, once the end of the loop is known. -/
theorem step_nestedLoop {id : Nat} (n : Node) {start : Lower σ Unit} {sets : List NodeId}
    {each : LoopLabels → Lower σ Unit} {conds : List NodeId} {block : NodeId}
    {inside : LoopLabels → Lower σ Unit}
    (hround : ∀ labels : LoopLabels,
      (lexical id (Function.update table id (some labels.finish))).step (Same fun _ => True)
        (round t walk n start sets each conds block labels) (inside labels)) :
    (lexical (id + 1) table).step (Same fun _ => True)
      (loop t walk id n start sets each conds block) (Nested.loop n inside) := by
  apply Pairing.step_bind _ lexical_fresh
  rintro top _ rfl
  apply Pairing.step_bind _ lexical_fresh
  rintro finish _ rfl
  apply lexical_noteLoop
  apply Pairing.step_bind _ (lexical_inBlock (hround ⟨top, finish⟩))
  rintro is _ rfl
  exact lexical_push _

theorem step_nestedForIf {id : Nat} {n : Node} {sets : Option NodeId} {conds : List NodeId}
    {block : NodeId} (hn : t.node? id = some n) (hkind : n.kind = .forIf sets conds block) :
    (lexical (id + 1) table).step (Same fun _ => True) (forIf t walk id n sets conds block)
      (Nested.forIf t nested n sets conds block) := by
  have hloop : n.kind.isLoop = true := by rw [hkind]; rfl
  apply step_nestedLoop
  intro labels
  have hchild : ∀ c ∈ sets.toList ++ conds ++ [block], c ∈ n.kind.children := by
    rw [hkind]
    exact fun c hc => hc
  apply (lexicalControl _ _).step_round trivial rfl rfl (Pairing.pure_same _ trivial)
  · exact fun c hc => visit_round ht hfollows hn hloop ⟨n, hn, hchild c (by simp [hc])⟩
  · exact Pairing.pure_same _ trivial
  · exact fun c _ => lexical_fits t c
  · exact fun c hc => value_round ht hfollows hn (hchild c (by simp [hc]))
  · exact visit_round ht hfollows hn hloop ⟨n, hn, hchild block (by simp)⟩

theorem step_nestedForIn {id : Nat} {n : Node} {key value : Option NodeId} {expr block : NodeId}
    (hn : t.node? id = some n) (hkind : n.kind = .forIn key value expr block) :
    (lexical (id + 1) table).step (Same fun _ => True) (forIn t walk id n key value expr block)
      (Nested.forIn t nested n key value expr block) := by
  have hloop : n.kind.isLoop = true := by rw [hkind]; rfl
  apply Pairing.bind_same _ (Pairing.step_loopTarget? (fun c _ => lexical_fits t c)
    fun _ _ => lexical_granted _)
  intro keyTarget hkey
  apply Pairing.bind_same _ (Pairing.step_loopTarget? (fun c _ => lexical_fits t c)
    fun _ _ => lexical_granted _)
  intro valueTarget hvalue
  apply step_nestedLoop
  intro labels
  have hchild : ∀ c ∈ key.toList ++ value.toList ++ [expr, block], c ∈ n.kind.children := by
    rw [hkind]
    exact fun c hc => hc
  apply (lexicalControl _ _).step_round trivial rfl rfl
  · exact Pairing.step_startElements trivial (value_round ht hfollows hn (hchild expr (by simp)))
  · intro c hc
    exact visit_round ht hfollows hn hloop ⟨n, hn, hchild c (List.mem_append_left _ hc)⟩
  · exact (lexicalControl _ _).step_eachElement trivial (fun _ _ => trivial) (fun _ _ => trivial)
      rfl
  · exact List.forall_mem_nil _
  · exact List.forall_mem_nil _
  · exact visit_round ht hfollows hn hloop ⟨n, hn, hchild block (by simp)⟩

omit hfollows [NameSupply σ] in
/-- The loop that a break finds by climbing ends where the scope says. -/
theorem step_leave {id : Nat} {n : Node} (hn : t.node? id = some n)
    (hscope : scope = (t.loopAbove id).bind table) :
    (lexical (σ := σ) (id + 1) table).step (Same fun _ => True) (breakLoop t id n)
      (Nested.leave scope n) := by
  intro s x s₁ hs hrun
  obtain ⟨loop, finish, hloop, hfinish, rfl⟩ := breakLoop_eq_ok hrun
  rw [Tree.enclosingLoop_eq_loopAbove hn] at hloop
  cases hloop' : t.loopAbove id with
  | none => rw [hloop'] at hloop; cases hloop
  | some found =>
    rw [hloop'] at hloop
    cases hloop
    have htable : table loop = some finish :=
      (hs loop (ht.linked.lt_loopAbove hloop')).symm.trans hfinish
    have hknown : scope = some finish := by rw [hscope, hloop', Option.bind_some, htable]
    rw [hknown]
    exact ⟨hs, (), ⟨rfl, trivial⟩, rfl⟩

/-- The branches of a chain stand in the same loop as the chain. -/
theorem step_nestedChain {id : Nat} {n : Node} {conds : List NodeId} {block : NodeId}
    {elseIfs : List NodeId} {elseBlock : Option NodeId} (hn : t.node? id = some n)
    (hkind : n.kind = .ifChain conds block elseIfs elseBlock)
    (hscope : scope = (t.loopAbove id).bind table) :
    (lexical (id + 1) table).step (Same fun _ => True) (ifChain t walk id n elseIfs elseBlock)
      (ifChain t (nested scope) id n elseIfs elseBlock) := by
  have hchain : t.Is NodeKind.isChain id := (Tree.is_iff hn).mpr (by rw [hkind]; rfl)
  have hbranch : ∀ x ∈ id :: elseIfs, x = id ∨ t.IsChild id x := by
    intro x hx
    rcases List.mem_cons.mp hx with rfl | hx
    · exact Or.inl rfl
    · refine Or.inr ⟨n, hn, ?_⟩
      rw [hkind]
      simp [NodeKind.children, hx]
  have hle : ∀ x ∈ id :: elseIfs, x ≤ id := by
    intro x hx
    rcases hbranch x hx with rfl | hchild
    · exact Nat.le_refl _
    · exact Nat.le_of_lt (ht.ordered hchild)
  have hvisit : ∀ x ∈ id :: elseIfs, t.Is NodeKind.isChain x → ∀ c, t.IsChild x c →
      (lexical (id + 1) table).Visit walk (nested scope) c := by
    intro x hx hxchain c hc
    obtain ⟨m, hm, hmkind⟩ := Tree.exists_node_of_is hxchain
    obtain ⟨hnoLoop, hnoLambda, hnoShared⟩ := NodeKind.plain_of_isBlock_or_isChain (.inr hmkind)
    have hsame : t.loopAbove x = t.loopAbove id := by
      rcases hbranch x hx with rfl | hchild
      · rfl
      · have hshared : ¬ t.Is NodeKind.isShared x := by simp [Tree.is_iff hm, hnoShared]
        rw [ht.loopAbove_child hn hchild hshared, hkind]
        rfl
    apply visit_inside ht hfollows hm hnoLoop hnoLambda (Nat.lt_succ_of_le (hle x hx)) _ _ hc
    · rw [hsame, hscope]
    · rw [hsame]
      exact fun l hl => ht.linked.lt_loopAbove hl
  apply (lexicalControl _ _).step_ifChain lexical_fresh trivial
  · exact fun _ _ d _ => lexical_fits t d
  · exact fun _ _ => lexical_granted _
  · intro x hx c hc
    have hlt : c < x := ht.ordered hc.isChild
    exact (hfollows c).value (Nat.lt_of_lt_of_le hlt (Nat.le_succ_of_le (hle x hx))) _
  · exact hvisit
  · intro c hc
    apply hvisit id List.mem_cons_self hchain c ⟨n, hn, ?_⟩
    rw [hkind]
    exact List.mem_append_right _ hc

/-- A rule without control goes with itself in every scope that is right for a statement. -/
theorem visit_nestedPlain {id : Nat} {n : Node} (hn : t.node? id = some n)
    (hcontrol : n.kind.isControl = false) (hattr : ∀ name expr, n.kind ≠ .structAttr name expr)
    (hscope : n.kind.isExpression = false → scope = (t.loopAbove id).bind table) :
    (lexical (id + 1) table).Visit (rule t walk) (rule t (nested scope)) id := by
  apply Pairing.visit_rule hn hcontrol
  · refine ⟨fun c _ => lexical_fits t c, fun above c habove hc => ?_⟩
    have hbelow : t.Below id c := .tail' habove hc.isChild
    exact (hfollows c).value (Nat.lt_succ_of_lt (ht.lt_of_below hbelow)) _
  · intro c hc
    have hchild : t.IsChild id c := ⟨n, hn, NodeKind.mem_children_of_mem_visited hc⟩
    cases hk : n.kind with
    | file | sets | exprStmt =>
      apply visit_inside ht hfollows hn _ _ (Nat.lt_succ_self _) _ _ hchild
      · rw [hk]; rfl
      · rw [hk]; rfl
      · exact hscope (by rw [hk]; rfl)
      · exact fun l hl => ht.linked.lt_loopAbove hl
    | structAttr name expr => exact absurd hk (hattr name expr)
    | _ => rw [hk] at hc; cases hc

/-- Every rule but that of an attribute goes with its rule with scopes. An expression goes down to
operands and bodies of functions, so its scope does not matter. -/
theorem visit_nestedRule {id : Nat} {n : Node} (hn : t.node? id = some n)
    (hattr : ∀ name expr, n.kind ≠ .structAttr name expr)
    (hscope : n.kind.isExpression = false → scope = (t.loopAbove id).bind table) :
    (lexical (id + 1) table).Visit (rule t walk) (Nested.rule t nested scope) id := by
  unfold Pairing.Visit
  by_cases hcontrol : n.kind.isControl = false
  · have hscoping : n.kind.isScoping = false := by
      cases hk : n.kind with
      | lambda | func | forIf | forIn | breakLoop => rw [hk] at hcontrol; cases hcontrol
      | _ => rfl
    rw [Nested.rule_eq hn hscoping]
    exact visit_nestedPlain ht hfollows hn hcontrol hattr hscope
  · rw [rule, nodeAt_eq hn, pure_bind]
    rcases n with ⟨kind, span, parent, info⟩
    cases kind with
    | block nodes =>
      rw [Nested.rule_eq hn rfl, rule, nodeAt_eq hn, pure_bind]
      apply Pairing.step_statement
      apply (lexicalControl _ _).step_block trivial
      apply (lexicalControl _ _).step_body (lexical_fits t id) (lexical_granted _)
      intro _ c hc
      exact visit_inside ht hfollows hn rfl rfl (Nat.lt_succ_self _) (hscope rfl)
        (fun l hl => ht.linked.lt_loopAbove hl) hc
    | ifChain conds block elseIfs elseBlock =>
      rw [Nested.rule_eq hn rfl, rule, nodeAt_eq hn, pure_bind]
      exact Pairing.step_statement (step_nestedChain ht hfollows hn rfl (hscope rfl))
    | lambda body =>
      rw [Nested.rule, nodeAt_eq hn, pure_bind]
      apply Pairing.step_expression
      apply Pairing.step_lambda lexical_takesBodies trivial (lexical_granted _)
      exact step_functionBody ht hfollows ((Tree.is_iff hn).mpr rfl) (Nat.lt_succ_self _)
        ⟨_, hn, List.mem_cons_self⟩
    | func isPub name function =>
      rw [Nested.rule, nodeAt_eq hn, pure_bind]
      apply Pairing.step_statement
      apply Pairing.step_func isPub trivial (lexical_granted _) (lexical_granted _)
        (lexical_fits t function) (lexical_granted _)
      intro f body hf hkind
      have hlt : function < id := ht.ordered ⟨_, hn, List.mem_cons_self⟩
      apply Pairing.step_lambda lexical_takesBodies trivial (lexical_granted _)
      exact step_functionBody ht hfollows ((Tree.is_iff hf).mpr (by rw [hkind]; rfl))
        (Nat.lt_succ_of_lt hlt) ⟨f, hf, by simp [hkind, NodeKind.children]⟩
    | forIf sets conds block =>
      rw [Nested.rule, nodeAt_eq hn, pure_bind]
      exact Pairing.step_statement (step_nestedForIf ht hfollows hn rfl)
    | forIn key value expr block =>
      rw [Nested.rule, nodeAt_eq hn, pure_bind]
      exact Pairing.step_statement (step_nestedForIn ht hfollows hn rfl)
    | breakLoop =>
      rw [Nested.rule, nodeAt_eq hn, pure_bind]
      exact Pairing.step_statement (step_leave ht hn (hscope rfl))
    | _ => exact absurd rfl hcontrol

/-- An attribute gives what its expression gives, in the same loop. -/
theorem follows_attr {id : Nat} {n : Node} {name : String} {expr : NodeId}
    (hn : t.node? id = some n) (hkind : n.kind = .structAttr name expr) :
    Follows t (rule t walk) (Nested.rule t nested) id := by
  intro s r s₁ hrun
  have hchild : t.IsChild id expr := ⟨n, hn, by simp [hkind, NodeKind.children]⟩
  have hlt : expr < id := ht.ordered hchild
  have hrule : ∀ w : Walk σ, rule t w id = w expr := by
    intro w
    rw [rule, nodeAt_eq hn, pure_bind, hkind]
  rw [hrule] at hrun
  obtain ⟨hshared, hkept, hnested⟩ := hfollows expr s r s₁ hrun
  refine ⟨fun _ => by simp [Tree.is_iff hn, hkind, NodeKind.isShared],
    fun l hl => hkept l (Nat.lt_trans hlt hl), fun scope hscope => ?_⟩
  rw [Nested.rule_eq hn (by rw [hkind]; rfl), hrule]
  apply hnested
  intro hnone
  rw [hscope hnone, ht.loopAbove_child hn hchild (hshared hnone), hkind]
  rfl

theorem follows_rule (id : NodeId) : Follows t (rule t walk) (Nested.rule t nested) id := by
  cases hn : t.node? id with
  | none =>
    intro s r s₁ hrun
    rw [rule, nodeAt, hn] at hrun
    cases hrun
  | some n =>
    by_cases hattr : ∃ name expr, n.kind = .structAttr name expr
    · obtain ⟨name, expr, hkind⟩ := hattr
      exact follows_attr ht hfollows hn hkind
    · simp only [not_exists] at hattr
      intro s r s₁ hrun
      let table : NodeId → Option Ident := fun l => s.loopEnds.lookup l
      have hvisit : ∀ scope, (r = none → scope = (t.loopAbove id).bind table) →
          (lexical (id + 1) table).Visit (rule t walk) (Nested.rule t nested scope) id :=
        fun scope hscope => visit_nestedRule ht hfollows hn hattr
          fun hstatement => hscope (none_of_rule hn hstatement hrun)
      refine ⟨?_, fun l hl => ?_, fun scope hscope => ?_⟩
      · exact fun hnone => not_shared_of_none (hnone ▸ hrun)
      · exact (hvisit _ (fun _ => rfl) s r s₁ (fun _ _ => rfl) hrun).1 l hl
      · obtain ⟨-, _, ⟨rfl, -⟩, hnested⟩ := hvisit scope hscope s r s₁ (fun _ _ => rfl) hrun
        exact hnested

end Rule

/-! ## Whole trees -/

/-- By the steps of the walk: each step follows a rule with a walk of one step less. -/
theorem follows_within (ht : t.Forest) (steps : Nat) (id : NodeId) :
    Follows (σ := σ) t (within t steps) (Nested.within t steps) id := by
  induction steps generalizing id with
  | zero =>
    intro s r s₁ hrun
    cases hrun
  | succ steps ih => exact follows_rule ht ih id

/-- Lowering a file makes what lowering it with scopes makes, if no loop around the file was lowered
before. -/
theorem nested_of_root (ht : t.Forest) {s s₁ : LowerState σ}
    (hnew : ∀ l, t.enclosingLoop id = .ok (some l) → s.loopEnds.lookup l = none)
    (h : root t id s = .ok () s₁) : Nested.root t id s.forgetLoops = .ok () s₁.forgetLoops := by
  cases hn : t.node? id with
  | none =>
    rw [root, nodeAt, hn] at h
    cases h
  | some n =>
    rw [root, nodeAt_eq hn, pure_bind] at h
    rw [Nested.root, nodeAt_eq hn, pure_bind]
    cases hk : n.kind with
    | file name nodes =>
      have hnone : (t.loopAbove id).bind (fun l => s.loopEnds.lookup l) = none := by
        cases hloop : t.loopAbove id with
        | none => rfl
        | some l => exact hnew l (by rw [Tree.enclosingLoop_eq_loopAbove hn, hloop])
      have hstep : (lexical (σ := σ) (id + 1) fun l => s.loopEnds.lookup l).step
          (Same fun _ => True) (file (within t (enough t)) n)
          (file (Nested.within t (enough t) none) n) := by
        apply Pairing.step_file (lexical_granted _)
        intro c hc
        apply visit_inside ht (follows_within ht _) hn _ _ (Nat.lt_succ_self _) hnone.symm _
          ⟨n, hn, hc⟩
        · rw [hk]; rfl
        · rw [hk]; rfl
        · exact fun l hl => ht.linked.lt_loopAbove hl
      obtain ⟨-, _, -, hnested⟩ := hstep s () s₁ (fun _ _ => rfl) h
      exact hnested
    | _ =>
      simp only [file, hk] at h
      cases h

end Lower

end BytecodeCompiler
