import BytecodeCompiler.Proofs.Lower.Pairing

-- Two lowerings side by side, where they make labels, jumps and blocks. The labels of the two sides
-- may differ, and so may the blocks that hold them. A pairing with control says which labels and
-- which blocks go together, and then the rules of chains, loops, blocks and functions go together.

namespace BytecodeCompiler

/-- One node is reached from the other by going down, and not into a loop. -/
def Tree.Beside (t : Tree) : NodeId → NodeId → Prop :=
  Relation.TransGen fun parent child => t.IsChild parent child ∧ ¬ t.Is NodeKind.isLoop parent

theorem Tree.Beside.below {t : Tree} {above below : NodeId} (h : t.Beside above below) :
    t.Below above below := by
  induction h with
  | single hedge => exact .single hedge.1
  | tail _ hedge ih => exact ih.tail hedge.1

theorem NodeKind.not_isLoop {kind : NodeKind}
    (h : kind.isBlock = true ∨ kind.isLambda = true ∨ kind.isChain = true) :
    ¬ kind.isLoop = true := by
  cases kind with
  | block | lambda | ifChain => exact Bool.false_ne_true
  | _ => rcases h with h | h | h <;> cases h

namespace Lower

variable {σ τ : Type}

/-- What goes on in the block of a loop. -/
def round (t : Tree) (walk : Walk σ) (n : Node) (start : Lower σ Unit) (sets : List NodeId)
    (each : LoopLabels → Lower σ Unit) (conds : List NodeId) (block : NodeId)
    (labels : LoopLabels) : Lower σ Unit := do
  start
  all walk sets
  push (.label labels.top n.span)
  each labels
  guards t walk n.span false labels.finish conds
  let _ ← walk block
  push (.jump labels.top n.span)
  push (.label labels.finish n.span)

/-- What a loop over an iterable does once. -/
def startElements (t : Tree) (walk : Walk σ) (n : Node) (expr : NodeId) : Lower σ Unit := do
  let v ← operand t walk expr
  push (.mov (.register .ra n.span) v n.span)
  push (.mov (.register .ri n.span) (.value (.int 0) n.span) n.span)

/-- What a loop over an iterable does with its index in each round: bind it and step it. -/
def bindIndex (span : Span) (key : Option Instr) : Lower σ Unit := do
  match key with
  | some target => push (.mov target (.register .ri span) span)
  | none => pure ()
  push (.binary .add (.register .ri span) (.value (.int 1) span) span)
  push (.mov (.register .ri span) top span)

/-! ## Functions -/

namespace Pairing

/-- Functions with such bodies go together. -/
def TakesBodies (p : Pairing σ τ) (good : List Instr → List Instr → Prop) : Prop :=
  ∀ {is is' : List Instr} (signature : Signature) {span : Span}, p.spans span → good is is' →
    p.step (Same fun _ => True) (push (.lambda signature is span))
      (push (.lambda signature is' span))

variable {p : Pairing σ τ} {t : Tree} {walk : Walk σ} {walk' : Walk τ}

theorem step_lambda {good : List Instr → List Instr → Prop} (hgood : p.TakesBodies good) {n : Node}
    {block : NodeId} (hspan : p.spans n.span)
    (hty : p.Granted ((n.ty?.bind Ty.signature?).isSome = true))
    (hbody : p.step good (body t walk block) (body t walk' block)) :
    p.step (Same p.accepts) (lambda t walk n block) (lambda t walk' n block) := by
  apply p.bind_same (step_tyOf _ (hty.imp Option.isSome_of_isSome_bind))
  intro ty hsome
  split
  · apply p.step_bind hbody
    intro is is' his
    apply p.bind_same (hgood _ hspan his)
    intro _ _
    exact p.pure_same p.accepts_top
  · rename_i hnone
    exact hty.step_throw (by simp [hsome, hnone]) rfl

/-- A function declares what its lambda is lowered to. -/
theorem step_func {n : Node} (isPub : Bool) {name : String} {function : NodeId}
    (hspan : p.spans n.span)
    (hname : p.Granted (n.ident? = none → name.utf8ByteSize ≤ Ident.maxName))
    (hty : p.Granted (n.ty?.isSome = true)) (hfits : p.Fits t function)
    (hkind : p.Granted (t.Is NodeKind.isLambda function))
    (hlambda : ∀ f block, t.node? function = some f → f.kind = .lambda block →
      p.step (Same p.accepts) (lambda t walk f block) (lambda t walk' f block)) :
    p.step (Same fun _ => True) (func t walk n isPub name function)
      (func t walk' n isPub name function) := by
  apply p.bind_same (step_nodeAt hfits)
  intro f hf
  cases hfkind : f.kind with
  | lambda block =>
    apply p.bind_same (hlambda f block hf hfkind)
    intro a ha
    apply p.bind_same (step_identOf hname)
    intro i _
    apply p.bind_same (step_tyOf _ hty)
    intro ty _
    exact p.step_push rfl hspan (by simp [Instr.operands, ha])
  | _ => exact hkind.step_throw (by simp [Tree.is_iff hf, hfkind, NodeKind.isLambda]) rfl

end Pairing

/-! ## Labels and blocks -/

/-- A pairing together with the labels and the blocks that go together. -/
structure Pairing.Control (p : Pairing σ τ) where
  label : Ident → Ident → Prop
  row : List Instr → List Instr → Prop
  step_inBlock {m : Lower σ Unit} {m' : Lower τ Unit} :
    p.step (Same fun _ => True) m m' → p.step row (inBlock m) (inBlock m')
  push_block {is is' : List Instr} {span : Span} : p.spans span → row is is' →
    p.step (Same fun _ => True) (push (.block is span)) (push (.block is' span))
  push_label {l l' : Ident} {span : Span} : p.spans span → label l l' →
    p.step (Same fun _ => True) (push (.label l span)) (push (.label l' span))
  push_jump {l l' : Ident} {span : Span} : p.spans span → label l l' →
    p.step (Same fun _ => True) (push (.jump l span)) (push (.jump l' span))
  push_compareJump {a b : Instr} {l l' : Ident} {span : Span} : p.spans span → p.accepts a →
    p.accepts b → label l l' →
    p.step (Same fun _ => True) (push (.compareJump a b l span)) (push (.compareJump a b l' span))

namespace Pairing.Control

variable {p : Pairing σ τ} (k : p.Control) {t : Tree} {walk : Walk σ} {walk' : Walk τ}

theorem step_body {id : NodeId} (hfits : p.Fits t id)
    (hkind : p.Granted (t.Is NodeKind.isBlock id))
    (hnodes : t.Is NodeKind.isBlock id → ∀ c, t.IsChild id c → p.Visit walk walk' c) :
    p.step k.row (body t walk id) (body t walk' id) := by
  apply p.bind_same (step_nodeAt hfits)
  intro n hn
  cases hblock : n.kind with
  | block nodes =>
    apply k.step_inBlock
    apply step_all
    intro c hc
    refine hnodes ((Tree.is_iff hn).mpr (by rw [hblock]; rfl)) c ⟨n, hn, ?_⟩
    rw [hblock]
    exact hc
  | _ => exact hkind.step_throw (by simp [Tree.is_iff hn, hblock, NodeKind.isBlock]) rfl

theorem step_block {id : NodeId} {n : Node} (hspan : p.spans n.span)
    (hbody : p.step k.row (body t walk id) (body t walk' id)) :
    p.step (Same fun _ => True) (block t walk id n) (block t walk' id n) :=
  p.step_bind hbody fun _ _ hrow => k.push_block hspan hrow

theorem step_guards {span : Span} (truth : Bool) {l l' : Ident} {conds : List NodeId}
    (hspan : p.spans span) (hlabel : k.label l l') (hfits : ∀ c ∈ conds, p.Fits t c)
    (hconds : ∀ c ∈ conds, p.Value t walk walk' c) :
    p.step (Same fun _ => True) (guards t walk span truth l conds)
      (guards t walk' span truth l' conds) := by
  induction conds with
  | nil => exact p.pure_same trivial
  | cons cond conds ih =>
    obtain ⟨hcond, hfits⟩ := List.forall_mem_cons.mp hfits
    obtain ⟨hfirst, hothers⟩ := List.forall_mem_cons.mp hconds
    apply p.bind_same hfirst
    intro a ha
    apply p.bind_same (step_nodeAt hcond)
    intro n hn
    apply p.bind_same
      (k.push_compareJump (hcond.span hn) ha (p.accepts_value _ hspan) hlabel)
    intro _ _
    exact ih hfits hothers

/-- The labels of two branches go together, and the branches have the same block, on which the
walks agree. -/
def Branch (k : p.Control) (walk : Walk σ) (walk' : Walk τ) (a b : Ident × NodeId) : Prop :=
  k.label a.1 b.1 ∧ b.2 = a.2 ∧ p.Visit walk walk' a.2

theorem step_labelled {span : Span} {finish finish' : Ident}
    {blocks blocks' : List (Ident × NodeId)} (hspan : p.spans span)
    (hfinish : k.label finish finish') (h : List.Forall₂ (k.Branch walk walk') blocks blocks') :
    p.step (Same fun _ => True) (labelled walk span finish blocks)
      (labelled walk' span finish' blocks') := by
  induction h with
  | nil => exact p.pure_same trivial
  | @cons a b others others' hfirst hothers ih =>
    obtain ⟨label, block⟩ := a
    obtain ⟨label', block'⟩ := b
    obtain ⟨hlabel, rfl, hblock⟩ := hfirst
    cases hothers with
    | nil =>
      apply p.bind_same (k.push_label hspan hlabel)
      intro _ _
      exact p.bind_same hblock fun _ _ => p.pure_same trivial
    | cons hnext hothers =>
      apply p.bind_same (k.push_label hspan hlabel)
      intro _ _
      apply p.bind_same hblock
      intro _ _
      exact p.bind_same (k.push_jump hspan hfinish) fun _ _ => ih

theorem step_round {n : Node} {start : Lower σ Unit} {start' : Lower τ Unit} {sets : List NodeId}
    {each : LoopLabels → Lower σ Unit} {each' : LoopLabels → Lower τ Unit} {conds : List NodeId}
    {block : NodeId} {labels labels' : LoopLabels} (hspan : p.spans n.span)
    (htop : k.label labels.top labels'.top) (hfinish : k.label labels.finish labels'.finish)
    (hstart : p.step (Same fun _ => True) start start')
    (hsets : ∀ c ∈ sets, p.Visit walk walk' c)
    (heach : p.step (Same fun _ => True) (each labels) (each' labels'))
    (hfits : ∀ c ∈ conds, p.Fits t c) (hconds : ∀ c ∈ conds, p.Value t walk walk' c)
    (hblock : p.Visit walk walk' block) :
    p.step (Same fun _ => True) (round t walk n start sets each conds block labels)
      (round t walk' n start' sets each' conds block labels') := by
  apply p.bind_same hstart
  intro _ _
  apply p.bind_same (step_all hsets)
  intro _ _
  apply p.bind_same (k.push_label hspan htop)
  intro _ _
  apply p.bind_same heach
  intro _ _
  apply p.bind_same (k.step_guards false hspan hfinish hfits hconds)
  intro _ _
  apply p.bind_same hblock
  intro _ _
  apply p.bind_same (k.push_jump hspan htop)
  intro _ _
  exact k.push_label hspan hfinish

end Pairing.Control

namespace Pairing

variable {p : Pairing σ τ} {t : Tree} {walk : Walk σ} {walk' : Walk τ}

theorem step_loopTarget {id : NodeId} (hfits : p.Fits t id)
    (hkind : p.Granted (t.Is NodeKind.isSet id)) :
    p.step (Same p.accepts) (loopTarget t id) (loopTarget t id) := by
  apply p.bind_same (step_nodeAt hfits)
  intro n hn
  cases hset : n.kind with
  | set isPub isConst name expr element =>
    have hname : p.Granted (n.ident? = none → name.utf8ByteSize ≤ Ident.maxName) :=
      (hfits.sound hn).imp fun hsound => hsound.resolved name (by rw [hset]; rfl)
    exact p.bind_same (step_identOf hname) fun _ _ =>
      p.pure_same (p.accepts_value _ (hfits.span hn))
  | _ => exact hkind.step_throw (by simp [Tree.is_iff hn, hset, NodeKind.isSet]) rfl

theorem step_loopTarget? {id : Option NodeId} (hfits : ∀ c ∈ id.toList, p.Fits t c)
    (hkind : ∀ c ∈ id.toList, p.Granted (t.Is NodeKind.isSet c)) :
    p.step (Same fun target => ∀ i ∈ target, p.accepts i) (loopTarget? t id)
      (loopTarget? t id) := by
  cases id with
  | none => exact p.pure_same (by simp)
  | some id =>
    apply p.bind_same
      (step_loopTarget (hfits id List.mem_cons_self) (hkind id List.mem_cons_self))
    intro a ha
    exact p.pure_same (by simpa using ha)

theorem step_startElements {n : Node} {expr : NodeId} (hspan : p.spans n.span)
    (hexpr : p.Value t walk walk' expr) :
    p.step (Same fun _ => True) (startElements t walk n expr) (startElements t walk' n expr) := by
  have hvalue : ∀ v, p.accepts (.value v n.span) := fun v => p.accepts_value v hspan
  apply p.bind_same hexpr
  intro a ha
  have hmov : p.step (Same fun _ => True) (push (.mov (.register .ra n.span) a n.span))
      (push (.mov (.register .ra n.span) a n.span)) :=
    p.step_push rfl hspan (by simp [Instr.operands, ha, Instr.register, hvalue])
  apply p.bind_same hmov
  intro _ _
  exact p.step_push rfl hspan (by simp [Instr.operands, Instr.register, hvalue])

theorem step_bindIndex {span : Span} {key : Option Instr} (hspan : p.spans span)
    (hkey : ∀ i ∈ key, p.accepts i) :
    p.step (Same fun _ => True) (bindIndex span key) (bindIndex span key) := by
  have hri : p.accepts (.register .ri span) := p.accepts_value _ hspan
  have hstep : p.step (Same fun _ => True) (bindIndex span none) (bindIndex span none) := by
    have hadd : p.step (Same fun _ => True)
        (push (.binary .add (.register .ri span) (.value (.int 1) span) span))
        (push (.binary .add (.register .ri span) (.value (.int 1) span) span)) :=
      p.step_push rfl hspan (by simp [Instr.operands, hri, p.accepts_value _ hspan])
    apply p.bind_same hadd
    intro _ _
    exact p.step_push rfl hspan (by simp [Instr.operands, hri, p.accepts_top])
  cases key with
  | none => exact hstep
  | some target =>
    have htarget := hkey target rfl
    have hmov : p.step (Same fun _ => True) (push (.mov target (.register .ri span) span))
        (push (.mov target (.register .ri span) span)) :=
      p.step_push rfl hspan (by simp [Instr.operands, htarget, hri])
    exact p.bind_same hmov fun _ _ => hstep

namespace Control

variable (k : p.Control)

theorem step_eachElement {span : Span} {key value : Option Instr} {labels labels' : LoopLabels}
    (hspan : p.spans span) (hkey : ∀ i ∈ key, p.accepts i) (hvalue : ∀ i ∈ value, p.accepts i)
    (hfinish : k.label labels.finish labels'.finish) :
    p.step (Same fun _ => True) (eachElement span key value labels)
      (eachElement span key value labels') := by
  have hra : p.accepts (.register .ra span) := p.accepts_value _ hspan
  have hri : p.accepts (.register .ri span) := p.accepts_value _ hspan
  have hpush : ∀ {i : Instr}, i.isWork = true → i.span = span → (∀ o ∈ i.operands, p.accepts o) →
      p.step (Same fun _ => True) (push i) (push i) :=
    fun hi hat ho => p.step_push hi (hat ▸ hspan) ho
  apply p.bind_same (hpush rfl rfl (by simp [Instr.operands, hra]))
  intro _ _
  apply p.bind_same (hpush rfl rfl (by simp [Instr.operands, hri, p.accepts_top]))
  intro _ _
  apply p.bind_same (k.push_compareJump hspan p.accepts_top (p.accepts_value _ hspan) hfinish)
  intro _ _
  cases value with
  | none => exact step_bindIndex hspan hkey
  | some target =>
    have htarget := hvalue target rfl
    apply p.bind_same (hpush rfl rfl (by simp [Instr.operands, hri, hra]))
    intro _ _
    apply p.bind_same (hpush rfl rfl (by simp [Instr.operands, htarget, p.accepts_top]))
    intro _ _
    exact step_bindIndex hspan hkey

/-! ## Chains and loops that draw their labels -/

variable [NameSupply σ] [NameSupply τ]

theorem step_branches {span : Span} {ids : List NodeId} (hfresh : p.step k.label fresh fresh)
    (hspan : p.spans span) (hfits : ∀ id ∈ ids, ∀ c, t.Reaches id c → p.Fits t c)
    (hkind : ∀ id ∈ ids, p.Granted (t.Is NodeKind.isChain id))
    (hvalue : ∀ id ∈ ids, ∀ c, t.IsValue id c → p.Value t walk walk' c)
    (hvisit : ∀ id ∈ ids, t.Is NodeKind.isChain id → ∀ c, t.IsChild id c → p.Visit walk walk' c) :
    p.step (List.Forall₂ (k.Branch walk walk')) (branches t walk span ids)
      (branches t walk' span ids) := by
  induction ids with
  | nil => exact p.step_pure .nil
  | cons id ids ih =>
    obtain ⟨hid, hfits⟩ := List.forall_mem_cons.mp hfits
    obtain ⟨hchain, hkinds⟩ := List.forall_mem_cons.mp hkind
    obtain ⟨hvalue, hvalues⟩ := List.forall_mem_cons.mp hvalue
    obtain ⟨hvisit, hvisits⟩ := List.forall_mem_cons.mp hvisit
    apply p.bind_same (step_nodeAt (hid id .refl))
    intro n hn
    cases hk : n.kind with
    | ifChain conds block elseIfs elseBlock =>
      have hcond : ∀ c ∈ conds, t.IsValue id c := fun c hc => ⟨n, hn, by rwa [hk]⟩
      have hblock : p.Visit walk walk' block :=
        hvisit ((Tree.is_iff hn).mpr (by rw [hk]; rfl)) block
          ⟨n, hn, by simp [hk, NodeKind.children]⟩
      apply p.step_bind hfresh
      intro l l' hlabel
      apply p.bind_same (k.step_guards true hspan hlabel
        (fun c hc => hid c (.single (hcond c hc).isChild)) fun c hc => hvalue c (hcond c hc))
      intro _ _
      apply p.step_bind (ih hfits hkinds hvalues hvisits)
      intro others others' hothers
      exact p.step_pure (.cons ⟨hlabel, rfl, hblock⟩ hothers)
    | _ => exact hchain.step_throw (by simp [Tree.is_iff hn, hk, NodeKind.isChain]) rfl

include k in
theorem step_ifChain {id : NodeId} {n : Node} {elseIfs : List NodeId} {elseBlock : Option NodeId}
    (hfresh : p.step k.label fresh fresh) (hspan : p.spans n.span)
    (hfits : ∀ c ∈ id :: elseIfs, ∀ d, t.Reaches c d → p.Fits t d)
    (hkind : ∀ c ∈ id :: elseIfs, p.Granted (t.Is NodeKind.isChain c))
    (hvalue : ∀ c ∈ id :: elseIfs, ∀ d, t.IsValue c d → p.Value t walk walk' d)
    (hvisit : ∀ c ∈ id :: elseIfs, t.Is NodeKind.isChain c →
      ∀ d, t.IsChild c d → p.Visit walk walk' d)
    (helse : ∀ c ∈ elseBlock.toList, p.Visit walk walk' c) :
    p.step (Same fun _ => True) (ifChain t walk id n elseIfs elseBlock)
      (ifChain t walk' id n elseIfs elseBlock) := by
  apply p.step_bind hfresh
  intro finish finish' hfinish
  apply p.step_bind (k.step_branches hfresh hspan hfits hkind hvalue hvisit)
  intro blocks blocks' hblocks
  apply p.bind_same (step_all helse)
  intro _ _
  apply p.bind_same (k.push_jump hspan hfinish)
  intro _ _
  apply p.bind_same (k.step_labelled hspan hfinish hblocks)
  intro _ _
  exact k.push_label hspan hfinish

theorem step_loop {id : NodeId} {n : Node} {start : Lower σ Unit} {start' : Lower τ Unit}
    {sets : List NodeId} {each : LoopLabels → Lower σ Unit} {each' : LoopLabels → Lower τ Unit}
    {conds : List NodeId} {block : NodeId} (hfresh : p.step k.label fresh fresh)
    (hnote : ∀ l l', k.label l l' → p.step (Same fun _ => True) (noteLoop id l) (noteLoop id l'))
    (hspan : p.spans n.span) (hstart : p.step (Same fun _ => True) start start')
    (hsets : ∀ c ∈ sets, p.Visit walk walk' c)
    (heach : ∀ labels labels' : LoopLabels, k.label labels.finish labels'.finish →
      p.step (Same fun _ => True) (each labels) (each' labels'))
    (hfits : ∀ c ∈ conds, p.Fits t c) (hconds : ∀ c ∈ conds, p.Value t walk walk' c)
    (hblock : p.Visit walk walk' block) :
    p.step (Same fun _ => True) (loop t walk id n start sets each conds block)
      (loop t walk' id n start' sets each' conds block) := by
  apply p.step_bind hfresh
  intro top top' htop
  apply p.step_bind hfresh
  intro finish finish' hfinish
  apply p.bind_same (hnote finish finish' hfinish)
  intro _ _
  have hround : p.step (Same fun _ => True)
      (round t walk n start sets each conds block ⟨top, finish⟩)
      (round t walk' n start' sets each' conds block ⟨top', finish'⟩) :=
    k.step_round hspan htop hfinish hstart hsets (heach _ _ hfinish) hfits hconds hblock
  exact p.step_bind (k.step_inBlock hround) fun _ _ hrow => k.push_block hspan hrow

/-! ## Rules -/

variable {k}

/-- The rule of a node that is no loop and leaves none goes with itself, if its walks agree on the
values below and on what is reached without going into a loop. -/
theorem visit_rule (hfresh : p.step k.label fresh fresh) (hbodies : p.TakesBodies k.row)
    {id : NodeId} {n : Node} (hn : t.node? id = some n) (hloop : n.kind.isLoop = false)
    (hbreak : n.kind.isBreak = false) (h : p.Grounded t walk walk' id)
    (hvisit : ∀ c, t.Beside id c → p.Visit walk walk' c) :
    p.Visit (rule t walk) (rule t walk') id := by
  have hspan : p.spans n.span := (h.fits id .refl).span hn
  have hsound : p.Granted (n.Sound t) := (h.fits id .refl).sound hn
  have hchild : ∀ c ∈ n.kind.children, t.IsChild id c := fun c hc => ⟨n, hn, hc⟩
  have hbeside : ∀ c ∈ n.kind.children, t.Beside id c :=
    fun c hc => .single ⟨hchild c hc, by simp [Tree.is_iff hn, hloop]⟩
  have hfits : ∀ c ∈ n.kind.children, p.Fits t c := fun c hc => h.fits c (.single (hchild c hc))
  by_cases hcontrol : n.kind.isControl = false
  · exact Pairing.visit_rule hn hcontrol h fun c hc =>
      hvisit c (hbeside c (NodeKind.mem_children_of_mem_visited hc))
  · apply p.bind_same (step_nodeAt (h.fits id .refl))
    intro m hm
    obtain rfl : n = m := Option.some.inj (hn.symm.trans hm)
    -- The statements of a function are one level below its block.
    have hbody : ∀ block, p.Fits t block → p.Granted (t.Is NodeKind.isBlock block) →
        t.Beside id block → p.step k.row (body t walk block) (body t walk' block) := by
      intro block hblock hkind hpath
      refine k.step_body hblock hkind fun hkind c hc => hvisit c (hpath.tail ⟨hc, ?_⟩)
      obtain ⟨b, hb, hbkind⟩ := Tree.exists_node_of_is hkind
      exact (Tree.is_iff hb).not.mpr (NodeKind.not_isLoop (.inl hbkind))
    rcases n with ⟨kind, span, parent, info⟩
    cases kind with
    | block nodes =>
      refine step_statement (k.step_block hspan (k.step_body (h.fits id .refl) ?_ ?_))
      · exact .inr ((Tree.is_iff hn).mpr rfl)
      · exact fun _ c hc => hvisit c (.single ⟨hc, by simp [Tree.is_iff hn, hloop]⟩)
    | lambda block =>
      refine step_expression (step_lambda hbodies hspan (hsound.imp fun hn => hn.signature rfl) ?_)
      exact hbody block (hfits block List.mem_cons_self)
        (hsound.imp fun hn => hn.fixed block List.mem_cons_self)
        (hbeside block List.mem_cons_self)
    | func isPub name function =>
      have hfunction := hfits function List.mem_cons_self
      refine step_statement (step_func isPub hspan (hsound.imp fun hn => hn.resolved name rfl)
        (hsound.imp fun hn => hn.typed rfl) hfunction
        (hsound.imp fun hn => hn.fixed function List.mem_cons_self) fun f block hf hkind => ?_)
      have hpath : t.IsChild function block := ⟨f, hf, by simp [hkind, NodeKind.children]⟩
      have hlambda : f.kind.isLambda = true := by rw [hkind]; rfl
      refine step_lambda hbodies (hfunction.span hf)
        ((hfunction.sound hf).imp fun hf => hf.signature hlambda) (hbody block ?_ ?_ ?_)
      · exact h.fits block (.tail (.single (hchild function List.mem_cons_self)) hpath)
      · refine (hfunction.sound hf).imp fun hf => ?_
        have hfixed := hf.fixed block (by rw [hkind]; exact List.mem_cons_self)
        rwa [hkind] at hfixed
      · refine (hbeside function List.mem_cons_self).tail ⟨hpath, ?_⟩
        exact (Tree.is_iff hf).not.mpr (NodeKind.not_isLoop (.inr (.inl hlambda)))
    | ifChain conds block elseIfs elseBlock =>
      have hreach : ∀ c ∈ id :: elseIfs, t.Reaches id c := by
        intro c hc
        rcases List.mem_cons.mp hc with rfl | hc
        · exact .refl
        · exact .single (hchild c (by simp [NodeKind.children, hc]))
      refine step_statement (k.step_ifChain hfresh hspan
        (fun c hc d hd => h.fits d ((hreach c hc).trans hd)) ?_
        (fun c hc d hd => h.value c d (hreach c hc) hd) ?_ ?_)
      · refine List.forall_mem_cons.mpr ⟨.inr ((Tree.is_iff hn).mpr rfl), fun c hc => ?_⟩
        exact hsound.imp fun hn => hn.fixed c hc
      · intro c hc hkind d hd
        obtain ⟨m, hm, hmkind⟩ := Tree.exists_node_of_is hkind
        have hedge : t.IsChild c d ∧ ¬ t.Is NodeKind.isLoop c :=
          ⟨hd, (Tree.is_iff hm).not.mpr (NodeKind.not_isLoop (.inr (.inr hmkind)))⟩
        rcases List.mem_cons.mp hc with rfl | hc
        · exact hvisit d (.single hedge)
        · exact hvisit d ((hbeside c (by simp [NodeKind.children, hc])).tail hedge)
      · exact fun c hc => hvisit c (hbeside c (List.mem_append_right _ hc))
    | forIf | forIn => cases hloop
    | breakLoop => cases hbreak
    | _ => exact absurd rfl hcontrol

/-! ## Whole trees -/

/-- The steps that draw a label, make a function, note a loop and leave one go together too. -/
structure Complete (k : p.Control) (t : Tree) : Prop where
  fresh : p.step k.label fresh fresh
  takesBodies : p.TakesBodies k.row
  note : ∀ id l l', k.label l l' → p.step (Same fun _ => True) (noteLoop id l) (noteLoop id l')
  leave : ∀ {id n}, t.node? id = some n →
    p.step (Same fun _ => True) (breakLoop t id n) (breakLoop t id n)

variable (hwhole : k.Complete t)

include hwhole

theorem Complete.step_forIf {id : NodeId} {n : Node} {sets : Option NodeId} {conds : List NodeId}
    {block : NodeId} (hspan : p.spans n.span) (hfits : ∀ c ∈ conds, p.Fits t c)
    (hconds : ∀ c ∈ conds, p.Value t walk walk' c)
    (hvisit : ∀ c ∈ (NodeKind.forIf sets conds block).children, p.Visit walk walk' c) :
    p.step (Same fun _ => True) (forIf t walk id n sets conds block)
      (forIf t walk' id n sets conds block) :=
  k.step_loop hwhole.fresh (hwhole.note id) hspan (p.pure_same trivial)
    (fun c hc => hvisit c (by simp [NodeKind.children, hc])) (fun _ _ _ => p.pure_same trivial)
    hfits hconds (hvisit block (by simp [NodeKind.children]))

theorem Complete.step_forIn {id : NodeId} {n : Node} {key value : Option NodeId}
    {expr block : NodeId} (hspan : p.spans n.span)
    (hfits : ∀ c ∈ key.toList ++ value.toList, p.Fits t c)
    (hkind : ∀ c ∈ key.toList ++ value.toList, p.Granted (t.Is NodeKind.isSet c))
    (hexpr : p.Value t walk walk' expr)
    (hvisit : ∀ c ∈ (NodeKind.forIn key value expr block).children, p.Visit walk walk' c) :
    p.step (Same fun _ => True) (forIn t walk id n key value expr block)
      (forIn t walk' id n key value expr block) := by
  obtain ⟨hkeyFits, hvalueFits⟩ := List.forall_mem_append.mp hfits
  obtain ⟨hkeyKind, hvalueKind⟩ := List.forall_mem_append.mp hkind
  apply p.bind_same (step_loopTarget? hkeyFits hkeyKind)
  intro keyTarget hkey
  apply p.bind_same (step_loopTarget? hvalueFits hvalueKind)
  intro valueTarget hvalue
  exact k.step_loop hwhole.fresh (hwhole.note id) hspan (step_startElements hspan hexpr)
    (fun c hc => hvisit c (List.mem_append_left _ hc))
    (fun _ _ hfinish => k.step_eachElement hspan hkey hvalue hfinish)
    (List.forall_mem_nil _) (List.forall_mem_nil _) (hvisit block (by simp [NodeKind.children]))

/-- Every rule goes with itself if its walks agree on all nodes below. -/
theorem Complete.visit_rule {id : NodeId} (hlenient : p.Lenient)
    (hfits : ∀ c, t.Reaches id c → p.Fits t c)
    (hwalk : ∀ c, t.Below id c → p.Visit walk walk' c) :
    p.Visit (rule t walk) (rule t walk') id := by
  have hground : p.Grounded t walk walk' id := by
    refine ⟨hfits, fun above c habove hc => ?_⟩
    have hbelow : t.Below id c := .tail' habove hc.isChild
    exact (hwalk c hbelow).value hlenient (hfits c hbelow.to_reflTransGen)
  cases hn : t.node? id with
  | none =>
    apply p.bind_same (step_nodeAt (hfits id .refl))
    intro n hsome
    rw [hn] at hsome
    cases hsome
  | some n =>
    have hspan : p.spans n.span := (hfits id .refl).span hn
    have hchild : ∀ c ∈ n.kind.children, t.IsChild id c := fun c hc => ⟨n, hn, hc⟩
    have hvisit : ∀ c ∈ n.kind.children, p.Visit walk walk' c :=
      fun c hc => hwalk c (.single (hchild c hc))
    have hvalue : ∀ c ∈ n.kind.values, p.Value t walk walk' c :=
      fun c hc => hground.value id c .refl ⟨n, hn, hc⟩
    by_cases hscope : n.kind.isLoop = false ∧ n.kind.isBreak = false
    · exact Control.visit_rule hwhole.fresh hwhole.takesBodies hn hscope.1 hscope.2 hground
        fun c hc => hwalk c hc.below
    · apply p.bind_same (step_nodeAt (hfits id .refl))
      intro m hm
      obtain rfl : n = m := Option.some.inj (hn.symm.trans hm)
      rcases n with ⟨kind, span, parent, info⟩
      cases kind with
      | forIf sets conds block =>
        refine step_statement (hwhole.step_forIf hspan (fun c hc => ?_) hvalue hvisit)
        exact hfits c (.single (hchild c (NodeKind.mem_children_of_mem_values hc)))
      | forIn key value expr block =>
        exact step_statement (hwhole.step_forIn hspan
          (fun c hc => hfits c (.single (hchild c (List.mem_append_left _ hc))))
          (fun _ _ => .inl hlenient) (hvalue expr List.mem_cons_self) hvisit)
      | breakLoop => exact step_statement (hwhole.leave hn)
      | _ => exact absurd ⟨rfl, rfl⟩ hscope

/-- Lowering a node goes with itself, by induction on how deep the walk goes. -/
theorem Complete.visit_within (hcovers : p.Covers t) (steps : Nat) (id : NodeId) :
    p.Visit (within t steps) (within t steps) id := by
  induction steps generalizing id with
  | zero => exact p.step_throw (hcovers.faults _)
  | succ steps ih =>
    exact hwhole.visit_rule hcovers.lenient (fun c _ => hcovers.fits c) fun c _ => ih c

theorem Complete.value_within (hcovers : p.Covers t) (steps : Nat) (id : NodeId) :
    p.Value t (within t steps) (within t steps) id :=
  (hwhole.visit_within hcovers steps id).value hcovers.lenient (hcovers.fits id)

theorem Complete.step_root (hcovers : p.Covers t) (id : NodeId) :
    p.step (Same fun _ => True) (root t id) (root t id) := by
  apply p.bind_same (step_nodeAt (hcovers.fits id))
  intro n _
  exact step_file (hcovers.granted _) fun c _ => hwhole.visit_within hcovers (enough t) c

end Control

end Pairing

end Lower

end BytecodeCompiler
