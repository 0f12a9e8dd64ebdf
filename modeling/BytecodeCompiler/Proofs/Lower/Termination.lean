import BytecodeCompiler.Proofs.Lower.PairedControl
import BytecodeCompiler.Proofs.Tree.Ancestors

-- Lowering ends on every tree in which nodes list only nodes before them. The nodes may be of any
-- kinds and stand anywhere, and the checker may have left out anything. Whatever a rule lowers has
-- a smaller number than the node of the rule, also where a rule skips a node, so that number bounds
-- how deep the rules are followed. In the end there is a result or a complaint about a node.

namespace BytecodeCompiler

open NameSupply (Draws NeverEnds)

/-- Nodes list only nodes before them. -/
def Tree.Ordered (t : Tree) : Prop := ∀ parent child : Nat, t.IsChild parent child → child < parent

theorem Tree.ordered_empty : Tree.empty.Ordered := by
  rintro parent child ⟨n, hn, -⟩
  cases hn

/-- A tree stays in order when nodes are added that list only nodes that are there. -/
theorem Tree.Ordered.push {t : Tree} (h : t.Ordered) {kind : NodeKind} (span : Span)
    (hkind : ∀ c ∈ kind.children, c < t.size) : (t.push kind span).2.Ordered := by
  intro parent child hchild
  obtain ⟨found, hfound, hmem⟩ := Tree.isChild_iff_kind?.mp hchild
  rw [Tree.kind?_push] at hfound
  by_cases hparent : parent = t.size
  · rw [if_pos hparent] at hfound
    cases hfound
    rw [hparent]
    exact hkind child hmem
  · rw [if_neg hparent] at hfound
    exact h parent child (Tree.isChild_iff_kind?.mpr ⟨found, hfound, hmem⟩)

theorem Tree.Ordered.lt_of_below {t : Tree} (h : t.Ordered) {id other : Nat}
    (hbelow : t.Below id other) : other < id := by
  induction hbelow with
  | single hchild => exact h _ _ hchild
  | tail _ hchild ih => exact Nat.lt_trans (h _ _ hchild) ih

theorem Tree.Ordered.le_of_reaches {t : Tree} (h : t.Ordered) {id other : Nat}
    (hreaches : t.Reaches id other) : other ≤ id := by
  induction hreaches with
  | refl => exact Nat.le_refl id
  | tail _ hchild ih => exact Nat.le_of_lt (Nat.lt_of_lt_of_le (h _ _ hchild) ih)

theorem NameSupply.NeverEnds.next {σ : Type} [NameSupply σ] {names names' : σ} {i : Ident}
    (h : NeverEnds names) (hfresh : fresh names = some (i, names')) : NeverEnds names' :=
  fun is last hdraws => h (i :: is) last (.next hfresh hdraws)

namespace Lower

variable {σ : Type} [NameSupply σ] {α β : Type}

/-! ## Steps that stop -/

/-- Two steps have stopped together: with related results in one state, whose names never end, or
with the same complaint. -/
inductive StoppedTogether (rel : α → β → Prop) : EStateM.Result Fault (LowerState σ) α →
    EStateM.Result Fault (LowerState σ) β → Prop where
  | done {a : α} {b : β} {s : LowerState σ} (hrel : rel a b) (hnames : NeverEnds s.names) :
    StoppedTogether rel (.ok a s) (.ok b s)
  | complained {fault : Fault} {s : LowerState σ} (hfault : fault.isComplaint = true) :
    StoppedTogether rel (.error fault s) (.error fault s)

/-- With names that never end, both steps stop, and do the same. -/
def StopTogether (rel : α → β → Prop) (m : Lower σ α) (m' : Lower σ β) : Prop :=
  ∀ s, NeverEnds s.names → StoppedTogether rel (m s) (m' s)

theorem StopTogether.bind {γ δ : Type} {rel : α → β → Prop} {rel' : γ → δ → Prop} {m : Lower σ α}
    {m' : Lower σ β} {f : α → Lower σ γ} {f' : β → Lower σ δ} (hm : StopTogether rel m m')
    (hf : ∀ a b, rel a b → StopTogether rel' (f a) (f' b)) :
    StopTogether rel' (m >>= f) (m' >>= f') := by
  intro s hs
  have hfirst := hm s hs
  generalize hrun : m s = result at hfirst
  generalize hrun' : m' s = result' at hfirst
  cases hfirst with
  | done hrel hnames =>
    rw [bind_of_ok hrun, bind_of_ok hrun']
    exact hf _ _ hrel _ hnames
  | complained hfault =>
    rw [bind_of_error hrun, bind_of_error hrun']
    exact .complained hfault

theorem stopTogether_push (i : Instr) :
    StopTogether (Same fun _ => True) (push i : Lower σ Unit) (push i) :=
  fun _ hs => .done ⟨rfl, trivial⟩ hs

/-- Lowering next to lowering, where both stop. Only complaints are taken: a number that is no node
and a tree that is too deep are none. -/
def stopping : Pairing σ σ where
  step := StopTogether
  accepts _ := True
  spans _ := True
  faults fault := fault.isComplaint = true
  step_pure h _ hs := .done h hs
  step_throw h _ _ := .complained h
  step_bind := StopTogether.bind
  step_push _ _ _ := stopTogether_push _
  step_isProcessed _ _ _ hs := .done ⟨rfl, trivial⟩ hs
  step_markProcessed _ _ hs := .done ⟨rfl, trivial⟩ hs
  spans_none := trivial
  accepts_value _ _ _ := trivial
  accepts_wrapped _ _ _ _ := trivial
  accepts_iterable _ _ _ _ := trivial

theorem stopTogether_inBlock {m m' : Lower σ Unit}
    (hm : StopTogether (Same fun _ => True) m m') : StopTogether Eq (inBlock m) (inBlock m') := by
  rintro ⟨names, loopEnds, processed, out⟩ hs
  have hinside := hm ⟨names, loopEnds, processed, #[]⟩ hs
  simp only [inBlock]
  generalize m ⟨names, loopEnds, processed, #[]⟩ = result at hinside
  generalize m' ⟨names, loopEnds, processed, #[]⟩ = result' at hinside
  cases hinside with
  | done _ hnames => exact .done rfl hnames
  | complained hfault => exact .complained hfault

def stoppingControl : (stopping : Pairing σ σ).Control where
  label := Eq
  row := Eq
  step_inBlock := stopTogether_inBlock
  push_block _ h := h ▸ stopTogether_push _
  push_label _ h := h ▸ stopTogether_push _
  push_jump _ h := h ▸ stopTogether_push _
  push_compareJump _ _ _ h := h ▸ stopTogether_push _

theorem stopTogether_fresh : StopTogether Eq (fresh : Lower σ Ident) fresh := by
  rintro ⟨names, loopEnds, processed, out⟩ hs
  cases hfresh : NameSupply.fresh names with
  | none => exact absurd hfresh (hs [] names (.nothing names))
  | some drawn =>
    obtain ⟨i, names'⟩ := drawn
    have hnext : NeverEnds names' := hs.next hfresh
    simp only [fresh, hfresh]
    exact .done rfl hnext

/-- The nodes above a break are looked at, and the search always comes to an end. -/
theorem stopTogether_breakLoop {t : Tree} {id : NodeId} {n : Node} (hn : t.node? id = some n) :
    StopTogether (Same fun _ => True) (breakLoop t id n : Lower σ Unit) (breakLoop t id n) := by
  have hget : StopTogether Eq (get : Lower σ (LowerState σ)) get := fun _ hs => .done rfl hs
  unfold breakLoop
  rw [Tree.enclosingLoop_eq hn]
  cases t.climb NodeKind.isLoop NodeKind.isLambda t.size (t.parent? id) with
  | none => exact fun _ _ => .complained rfl
  | some loop =>
    apply hget.bind
    rintro s _ rfl
    cases s.loopEnds.lookup loop with
    | none => exact fun _ _ => .complained rfl
    | some finish => exact stopTogether_push _

theorem stoppingControl_complete (t : Tree) :
    (stoppingControl : (stopping : Pairing σ σ).Control).Complete t where
  fresh := stopTogether_fresh
  takesBodies _ _ _ h := by
    obtain rfl := (h : _ = _)
    exact stopTogether_push _
  note id l l' h := by
    obtain rfl := (h : _ = _)
    exact fun _ hs => .done ⟨rfl, trivial⟩ hs
  leave := stopTogether_breakLoop

theorem stopping_lenient : (stopping : Pairing σ σ).Lenient := fun _ hfault => hfault

theorem stopping_fits {t : Tree} {id : Nat} (hid : id < t.size) :
    (stopping : Pairing σ σ).Fits t id where
  missing hnone := by
    obtain ⟨n, hn⟩ := Tree.node?_of_lt_size hid
    rw [hn] at hnone
    cases hnone
  span _ := trivial
  sound _ := .inl stopping_lenient

/-! ## Whole trees -/

/-- Follow the rules down so many steps. What is further down is left to another walk. -/
def unfolded (t : Tree) (deeper : Walk σ) : (steps : Nat) → Walk σ
  | 0 => deeper
  | steps + 1 => rule t (unfolded t deeper steps)

theorem within_eq_unfolded (t : Tree) (steps : Nat) :
    (within t steps : Walk σ) = unfolded t (fun id => throw (.cyclicTree id)) steps := by
  induction steps with
  | zero => rfl
  | succ steps ih =>
    funext id
    change rule t (within t steps) id = rule t (unfolded t _ steps) id
    rw [ih]

variable {t : Tree} (hordered : t.Ordered)

include hordered

/-- With more steps than the number of the node, what is left to other walks is never reached. -/
theorem visit_unfolded (deeper deeper' : Walk σ) {steps steps' : Nat} {id : Nat}
    (hid : id < t.size) (hsteps : id < steps) (hsteps' : id < steps') :
    stopping.Visit (unfolded t deeper steps) (unfolded t deeper' steps') id := by
  induction id using Nat.strongRecOn generalizing steps steps' with
  | ind id ih =>
    obtain ⟨steps, rfl⟩ : ∃ k, steps = k + 1 := ⟨steps - 1, by omega⟩
    obtain ⟨steps', rfl⟩ : ∃ k, steps' = k + 1 := ⟨steps' - 1, by omega⟩
    refine (stoppingControl_complete t).visit_rule stopping_lenient (fun c hc => ?_) fun c hc => ?_
    · exact stopping_fits (Nat.lt_of_le_of_lt (hordered.le_of_reaches hc) hid)
    · -- What the rule lowers is before the node, and there one step less is enough on both sides.
      have hlt := hordered.lt_of_below hc
      exact ih c hlt (by omega) (by omega) (by omega)

/-- Lowering a node does what any number of steps does that is enough for it. -/
theorem visit_node (deeper : Walk σ) {steps : Nat} {id : Nat} (hid : id < t.size)
    (hsteps : id < steps) : stopping.Visit (node t) (unfolded t deeper steps) id := by
  unfold Pairing.Visit node
  rw [within_eq_unfolded]
  exact visit_unfolded hordered _ deeper hid (by unfold enough; omega) hsteps

theorem stopTogether_root (deeper : Walk σ) {steps : Nat} {id : Nat} (hid : id < t.size)
    (hsteps : id < steps) :
    StopTogether (Same fun _ => True) (root t id)
      (nodeAt t id >>= file (unfolded t deeper steps)) := by
  apply stopping.bind_same (Pairing.step_nodeAt (stopping_fits hid))
  intro n hn
  refine Pairing.step_file (.inl stopping_lenient) fun c hc => ?_
  have hlt : c < id := hordered id c ⟨n, hn, hc⟩
  exact visit_node hordered deeper (Nat.lt_trans hlt hid) (Nat.lt_trans hlt hsteps)

omit hordered

/-- A step gives a result or a complaint about a node. -/
def Answers (result : EStateM.Result Fault (LowerState σ) α) : Prop :=
  (∃ a s, result = .ok a s) ∨ ∃ fault s, result = .error fault s ∧ fault.isComplaint = true

theorem StopTogether.answers {good : α → Prop} {m m' : Lower σ α}
    (h : StopTogether (Same good) m m') {s : LowerState σ} (hs : NeverEnds s.names) :
    Answers (m s) ∧ m' s = m s := by
  have hstopped := h s hs
  generalize m s = result at hstopped
  generalize m' s = result' at hstopped
  cases hstopped with
  | done hsame => exact ⟨Or.inl ⟨_, _, rfl⟩, by rw [hsame.1]⟩
  | complained hfault => exact ⟨Or.inr ⟨_, _, rfl, hfault⟩, rfl⟩

/-- On a tree whose nodes list only nodes before them, whatever their kinds, lowering a node, a node
that must give an operand and a file answers from every state, with a result or a complaint about a
node. The rules are followed no deeper than the number of the node, so what would be done further
down does not matter. The search for the loop around a break goes up a chain that ends. -/
theorem lowering_ends (hgrown : t.Grown) (hordered : t.Ordered) (s : LowerState σ)
    (hnames : NeverEnds s.names) {id : Nat} (hid : id < t.size) :
    Answers (node t id s) ∧ Answers (value t id s) ∧ Answers (root t id s) ∧
    (∀ (deeper : Walk σ) (steps : Nat), id < steps →
      unfolded t deeper steps id s = node t id s ∧
      operand t (unfolded t deeper steps) id s = value t id s ∧
      (nodeAt t id >>= file (unfolded t deeper steps)) s = root t id s) ∧
    ∀ b < t.size, ∃ chain : List Nat, t.Ancestry b chain ∧ (∀ a ∈ chain, a < t.size) ∧
      t.enclosingLoop b = .ok (t.searched NodeKind.isLoop NodeKind.isLambda chain) := by
  have hlinked := hgrown.linked
  have hnode := fun (deeper : Walk σ) (steps : Nat) (hsteps : id < steps) =>
    visit_node hordered deeper hid hsteps
  have hvalue := fun (deeper : Walk σ) (steps : Nat) (hsteps : id < steps) =>
    (hnode deeper steps hsteps).value stopping_lenient (stopping_fits hid)
  have hroot := fun (deeper : Walk σ) (steps : Nat) (hsteps : id < steps) =>
    stopTogether_root hordered deeper hid hsteps
  have hnext : id < id + 1 := Nat.lt_succ_self id
  refine ⟨(StopTogether.answers (hnode (node t) _ hnext) hnames).1,
    (StopTogether.answers (hvalue (node t) _ hnext) hnames).1,
    ((hroot (node t) _ hnext).answers hnames).1, fun deeper steps hsteps => ?_, fun b hb => ?_⟩
  · exact ⟨(StopTogether.answers (hnode deeper steps hsteps) hnames).2,
      (StopTogether.answers (hvalue deeper steps hsteps) hnames).2,
      ((hroot deeper steps hsteps).answers hnames).2⟩
  · obtain ⟨chain, hchain⟩ := hlinked.exists_ancestry b
    exact ⟨chain, hchain, hlinked.lt_size_of_mem_ancestry hchain,
      hlinked.ancestor_eq_searched _ _ hchain hb⟩

/-- An attribute whose expression is a break, a function that is bound to a literal, and a loop
whose key is the function. Nothing was found out about any of them. -/
def misplacedNodes : Tree :=
  Tree.ofNodes [(.breakLoop, .none), (.literal, .none), (.structAttr "a" 0, .none),
    (.struct [2], .none), (.func false "f" 1, .none), (.forIn (some 4) none 3 0, .none),
    (.file "misplaced" [0, 5], .none)]

theorem ordered_misplacedNodes : misplacedNodes.Ordered :=
  ((((((Tree.ordered_empty.push .none (by decide)).push .none (by decide)).push .none
    (by decide)).push .none (by decide)).push .none (by decide)).push .none (by decide)).push .none
    (by decide)

theorem lowering_ends_misplaced :
    misplacedNodes.Grown ∧ misplacedNodes.Ordered ∧ NeverEnds SequentialNames.start ∧
    (∃ s, node misplacedNodes 5 (.ofNames SequentialNames.start) =
      .error (.unknownNode "func" .none) s) ∧
    ∀ deeper : Walk SequentialNames,
      unfolded misplacedNodes deeper 6 5 (.ofNames SequentialNames.start) =
        node misplacedNodes 5 (.ofNames SequentialNames.start) := by
  have hgrown : misplacedNodes.Grown := Tree.grown_ofNodes _
  have hnames := SequentialNames.neverEnds .start
  obtain ⟨-, -, -, hdeep, -⟩ := lowering_ends hgrown ordered_misplacedNodes
    (.ofNames SequentialNames.start) hnames (show 5 < misplacedNodes.size by decide)
  exact ⟨hgrown, ordered_misplacedNodes, hnames, ⟨_, rfl⟩, fun deeper =>
    (hdeep deeper 6 (by decide)).1⟩

end Lower

end BytecodeCompiler
