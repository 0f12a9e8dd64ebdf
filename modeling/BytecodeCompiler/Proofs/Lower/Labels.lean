import BytecodeCompiler.Lower.Program
import BytecodeCompiler.Proofs.Emission.OnePass
import BytecodeCompiler.Proofs.Lower.PairedControl

-- Every rule of lowering keeps the ledger of labels. So in a program that was lowered, every label
-- stands once, and every jump leads to a label that stands somewhere.

namespace BytecodeCompiler.Lower

variable {σ : Type}

/-! ## Names and nodes -/

/-- A look at the tree changes nothing. -/
theorem state_of_nodeAt {t : Tree} {id : NodeId} {n : Node} {s s' : LowerState σ}
    (h : nodeAt t id s = .ok n s') : s' = s := by
  unfold nodeAt at h
  cases hnode : t.node? id with
  | some n =>
    rw [hnode] at h
    cases h
    rfl
  | none =>
    rw [hnode] at h
    cases h

variable [NameSupply σ]

theorem handles_fresh (known hand : List Ident) :
    Handles known hand (fresh : Lower σ Ident) (fun l => l :: hand) fun _ => True := by
  intro s l s' h
  simp only [fresh] at h
  split at h
  · rename_i name names hfresh
    cases h
    refine ⟨trivial, [], (List.append_nil _).symm, ⟨[l], .one hfresh, fun k => ?_⟩,
      fun k hk => Or.inr (List.mem_cons_of_mem _ hk), fun k hk => (nomatch hk),
      fun k hk => Or.inr (Or.inr (Or.inr hk))⟩
    have hcons : (l :: hand).count k = [l].count k + hand.count k := by
      rw [← List.count_append]
      rfl
    rw [← hcons]
    exact Nat.le_of_eq (Nat.zero_add _)
  · cases h

/-! ## Rules without control -/

/-- Lowering that keeps the ledger, and gives operands without labels and jumps. -/
def ledgered : Pairing σ σ where
  step rel m _ := Neutral m fun a => ∃ b, rel a b
  accepts i := i.isInert = true
  spans _ := True
  faults _ := True
  step_pure h := neutral_pure ⟨_, h⟩
  step_throw {_ _ _ fault} _ := neutral_throw fault
  step_bind hm hf := hm.bind fun a ⟨b, hab⟩ => hf a b hab
  step_push hi _ ho := (neutral_push (Instr.isStraight_of_isWork hi) ho).weaken
    fun _ _ => ⟨_, rfl, trivial⟩
  step_isProcessed id flag known hand s a s' h := by
    cases h
    exact ⟨⟨_, rfl, trivial⟩, [], (List.append_nil _).symm, Ledger.refl known hand s⟩
  step_markProcessed id known hand s a s' h := by
    cases h
    exact ⟨⟨_, rfl, trivial⟩, [], (List.append_nil _).symm,
      (Ledger.refl known hand s).wrapped rfl rfl _ _⟩
  spans_none := trivial
  accepts_value v _ _ := Instr.isInert_value v _
  accepts_wrapped ty _ _ h := Instr.isInert_wrapped ty _ h
  accepts_iterable ty _ _ h := Instr.isInert_iterable ty _ h

theorem ledgered_covers (t : Tree) : (ledgered : Pairing σ σ).Covers t where
  faults _ := trivial
  spans _ := trivial

theorem Neutral.of_step {α : Type} {good : α → Prop} {m : Lower σ α}
    (h : ledgered.step (Same good) m m) : Neutral m good := by
  refine Neutral.weaken h ?_
  rintro a ⟨_, rfl, ha⟩
  exact ha

theorem Neutral.step {α : Type} {good : α → Prop} {m : Lower σ α} (h : Neutral m good) :
    ledgered.step (Same good) m m := h.weaken fun a ha => ⟨a, rfl, ha⟩

theorem neutral_nodeAt (t : Tree) (id : NodeId) :
    Neutral (nodeAt t id : Lower σ Node) fun n => t.node? id = some n :=
  .of_step (Pairing.step_nodeAt ((ledgered_covers t).fits id))

/-- A walk that keeps the ledger and gives operands without labels and jumps. -/
def Careful (walk : Walk σ) : Prop :=
  ∀ id, Neutral (walk id) fun result => ∀ i ∈ result, i.isInert = true

section Rules

variable {t : Tree} {walk : Walk σ} (hwalk : Careful walk)

include hwalk

theorem Careful.visit (id : NodeId) : ledgered.Visit walk walk id := (hwalk id).step

theorem Careful.value (t : Tree) (id : NodeId) : ledgered.Value t walk walk id :=
  (hwalk.visit id).value (ledgered_covers t).lenient ((ledgered_covers t).fits id)

theorem neutral_operand (id : NodeId) : Neutral (operand t walk id) fun i => i.isInert = true :=
  .of_step (hwalk.value t id)

theorem neutral_all (ids : List NodeId) : Neutral (all walk ids) fun _ => True :=
  .of_step (Pairing.step_all fun c _ => hwalk.visit c)

/-! ## Functions and blocks -/

theorem builds_body (known hand : List Ident) (id : NodeId) :
    Builds known hand (body t walk id) hand := by
  intro s made s'' h
  obtain ⟨n, s', hnode, hrest⟩ := bind_eq_ok h
  obtain rfl := state_of_nodeAt hnode
  cases hkind : n.kind with
  | block nodes =>
    rw [hkind] at hrest
    exact builds_inBlock (neutral_all hwalk nodes known hand) s' made s'' hrest
  | _ =>
    rw [hkind] at hrest
    cases hrest

theorem neutral_lambda (n : Node) (block : NodeId) :
    Neutral (lambda t walk n block) fun i => i.isInert = true := by
  have htop : Neutral (pure top : Lower σ Instr) fun i => i.isInert = true := neutral_pure rfl
  refine (Neutral.of_step (Pairing.step_tyOf _ ((ledgered_covers t).granted _))).bind
    fun ty _ => ?_
  split
  · intro known hand
    exact (builds_body hwalk known hand block).push_bind (fun is => Instr.names_lambda _ is _)
      (htop known hand)
  · exact neutral_throw _

theorem neutral_func (n : Node) (isPub : Bool) (name : String) (function : NodeId) :
    Neutral (func t walk n isPub name function) fun _ => True := by
  have hcovers := ledgered_covers (σ := σ) t
  exact .of_step (Pairing.step_func isPub trivial (hcovers.granted _) (hcovers.granted _)
    (hcovers.fits function) (hcovers.granted _) fun f block _ _ =>
      (neutral_lambda hwalk f block).step)

theorem neutral_block (id : NodeId) (n : Node) : Neutral (block t walk id n) fun _ => True :=
  fun known hand => (builds_body hwalk known hand id).push fun is => Instr.names_block is n.span

/-! ## Chains of conditions -/

omit hwalk in
/-- A jump may lead to a label in hand or to a known one. -/
theorem handles_push_jump {known hand : List Ident} {l : Ident} (span : Span)
    (hl : l ∈ hand ∨ l ∈ known) :
    Handles known hand (push (.jump l span) : Lower σ Unit) (fun _ => hand) fun _ => True := by
  refine handles_push rfl fun k hk => ?_
  obtain rfl := List.mem_singleton.mp hk
  exact hl

omit hwalk in
theorem handles_push_compareJump {known hand : List Ident} {a b : Instr} {l : Ident} (span : Span)
    (ha : a.isInert = true) (hb : b.isInert = true) (hl : l ∈ hand) :
    Handles known hand (push (.compareJump a b l span) : Lower σ Unit) (fun _ => hand)
      fun _ => True := by
  obtain ⟨hlabels, hjumps⟩ := Instr.names_compareJump ha hb l span
  refine handles_push hlabels fun k hk => ?_
  rw [hjumps, List.mem_singleton] at hk
  exact Or.inl (hk ▸ hl)

theorem handles_guards {known hand : List Ident} (span : Span) (truth : Bool) {label : Ident}
    (hlabel : label ∈ hand) (conds : List NodeId) :
    Handles known hand (guards t walk span truth label conds) (fun _ => hand) fun _ => True := by
  induction conds with
  | nil => exact neutral_pure trivial known hand
  | cons cond conds ih =>
    refine (neutral_operand hwalk cond known hand).bind fun v hv => ?_
    refine (neutral_nodeAt t cond known hand).bind fun c _ => ?_
    exact (handles_push_compareJump c.span hv rfl hlabel).bind fun _ _ => ih

/-- The branches leave the labels of their blocks in hand. -/
theorem handles_branches {known : List Ident} (hand : List Ident) (span : Span)
    (ids : List NodeId) :
    Handles known hand (branches t walk span ids) (fun blocks => blocks.map Prod.fst ++ hand)
      fun _ => True := by
  induction ids generalizing hand with
  | nil =>
    exact handles_pure (fun (blocks : List (Ident × NodeId)) => blocks.map Prod.fst ++ hand) trivial
  | cons id ids ih =>
    refine (neutral_nodeAt t id known hand).bind fun n _ => ?_
    split
    · refine (handles_fresh known hand).bind fun label _ => ?_
      refine (handles_guards hwalk span true List.mem_cons_self _).bind fun _ _ => ?_
      refine (ih (label :: hand)).bind fun others _ => ?_
      exact (handles_pure _ trivial).perm List.perm_middle fun _ _ => List.Perm.refl _
    · exact handles_throw _

/-- The labelled blocks take their labels out of the hand. -/
theorem handles_labelled {known hand : List Ident} (span : Span) {finish : Ident}
    (hfinish : finish ∈ hand) (blocks : List (Ident × NodeId)) :
    Handles known (blocks.map Prod.fst ++ hand) (labelled walk span finish blocks) (fun _ => hand)
      fun _ => True := by
  fun_induction labelled walk span finish blocks with
  | case1 => exact neutral_pure trivial known hand
  | case2 label block =>
    refine (handles_push_label label span).bind fun _ _ => ?_
    exact (hwalk block known hand).bind fun _ _ => neutral_pure trivial known hand
  | case3 label block others hothers ih =>
    refine (handles_push_label label span).bind fun _ _ => ?_
    refine (hwalk block known _).bind fun _ _ => ?_
    refine (handles_push_jump span ?_).bind fun _ _ => ih
    exact Or.inl (List.mem_append_right _ hfinish)

theorem neutral_ifChain (id : NodeId) (n : Node) (elseIfs : List NodeId)
    (elseBlock : Option NodeId) :
    Neutral (ifChain t walk id n elseIfs elseBlock) fun _ => True := by
  intro known hand
  refine (handles_fresh known hand).bind fun finish _ => ?_
  refine (handles_branches hwalk _ n.span _).bind fun blocks _ => ?_
  refine (neutral_all hwalk _ known _).bind fun _ _ => ?_
  refine (handles_push_jump n.span ?_).bind fun _ _ => ?_
  · exact Or.inl (List.mem_append_right _ List.mem_cons_self)
  · refine (handles_labelled hwalk n.span List.mem_cons_self blocks).bind fun _ _ => ?_
    exact handles_push_label finish n.span

/-! ## Loops -/

omit hwalk in
theorem handles_noteLoop {known hand : List Ident} (id : NodeId) {finish : Ident}
    (hfinish : finish ∈ hand) :
    Handles known hand (noteLoop id finish : Lower σ Unit) (fun _ => hand) fun _ => True := by
  intro s a s' h
  cases h
  refine ⟨trivial, [], (List.append_nil _).symm, ⟨[], .nothing s.names, fun l => Nat.le_refl _⟩,
    fun l hl => Or.inr hl, fun l hl => (nomatch hl), fun l hl => ?_⟩
  rcases List.mem_cons.mp hl with rfl | hl
  · exact Or.inr (Or.inl hfinish)
  · exact Or.inr (Or.inr (Or.inr hl))

/-- A loop keeps the ledger if what comes first does, and if what comes in every round does with the
label of the end in hand. -/
theorem neutral_loop (id : NodeId) (n : Node) {start : Lower σ Unit} (sets : List NodeId)
    {each : LoopLabels → Lower σ Unit} (conds : List NodeId) (block : NodeId)
    (hstart : Neutral start fun _ => True)
    (heach : ∀ known hand labels, labels.finish ∈ hand →
      Handles known hand (each labels) (fun _ => hand) fun _ => True) :
    Neutral (loop t walk id n start sets each conds block) fun _ => True := by
  intro known hand
  refine (handles_fresh known hand).bind fun top _ => ?_
  refine (handles_fresh known _).bind fun finish _ => ?_
  refine (handles_noteLoop id List.mem_cons_self).bind fun _ _ => ?_
  refine Builds.push (builds_inBlock ?_) fun is => Instr.names_block is n.span
  refine (hstart known _).bind fun _ _ => ?_
  refine (neutral_all hwalk sets known _).bind fun _ _ => ?_
  -- The top is put first, and then it is known to the rest of the round.
  refine Handles.perm (Handles.after_label ?_) (List.Perm.swap ..) fun _ _ => List.Perm.refl _
  refine (heach _ _ ⟨top, finish⟩ List.mem_cons_self).bind fun _ _ => ?_
  refine (handles_guards hwalk n.span false List.mem_cons_self conds).bind fun _ _ => ?_
  refine (hwalk block _ _).bind fun _ _ => ?_
  refine (handles_push_jump n.span (Or.inr List.mem_cons_self)).bind fun _ _ => ?_
  exact handles_push_label finish n.span

theorem neutral_forIf (id : NodeId) (n : Node) (sets : Option NodeId) (conds : List NodeId)
    (block : NodeId) : Neutral (forIf t walk id n sets conds block) fun _ => True :=
  neutral_loop hwalk id n _ conds block (neutral_pure trivial)
    fun known hand _ _ => neutral_pure trivial known hand

omit hwalk in
theorem neutral_loopTarget? (t : Tree) (id : Option NodeId) :
    Neutral (loopTarget? t id : Lower σ (Option Instr)) fun o => ∀ i ∈ o, i.isInert = true :=
  .of_step (Pairing.step_loopTarget? (fun c _ => (ledgered_covers t).fits c)
    fun _ _ => (ledgered_covers t).granted _)

omit hwalk in
theorem neutral_bindIndex (span : Span) {key : Option Instr} (hkey : ∀ i ∈ key, i.isInert = true) :
    Neutral (bindIndex span key : Lower σ Unit) fun _ => True :=
  .of_step (Pairing.step_bindIndex trivial hkey)

omit hwalk in
theorem handles_eachElement {known hand : List Ident} (span : Span) {key value : Option Instr}
    (hkey : ∀ i ∈ key, i.isInert = true) (hvalue : ∀ i ∈ value, i.isInert = true)
    (labels : LoopLabels) (hfinish : labels.finish ∈ hand) :
    Handles known hand (eachElement span key value labels : Lower σ Unit) (fun _ => hand)
      fun _ => True := by
  have hindex := neutral_bindIndex (σ := σ) span hkey known hand
  have htop : (top : Instr).isInert = true := rfl
  have hregister : ∀ r, (Instr.register r span).isInert = true := fun _ => rfl
  refine (neutral_push rfl (by simp [Instr.operands, hregister]) known hand).bind fun _ _ => ?_
  refine (neutral_push rfl (by simp [Instr.operands, hregister, htop]) known hand).bind
    fun _ _ => ?_
  refine (handles_push_compareJump span rfl rfl hfinish).bind fun _ _ => ?_
  cases value with
  | some target =>
    refine (neutral_push rfl (by simp [Instr.operands, hregister]) known hand).bind fun _ _ => ?_
    exact (neutral_push rfl (by simp [Instr.operands, htop, hvalue target rfl]) known
      hand).bind fun _ _ => hindex
  | none => exact hindex

theorem neutral_forIn (id : NodeId) (n : Node) (key value : Option NodeId) (expr block : NodeId) :
    Neutral (forIn t walk id n key value expr block) fun _ => True := by
  refine (neutral_loopTarget? t key).bind fun keyTarget hkey => ?_
  refine (neutral_loopTarget? t value).bind fun valueTarget hvalue => ?_
  refine neutral_loop hwalk id n _ [] block ?_ fun known hand labels hfinish => ?_
  · exact .of_step (Pairing.step_startElements trivial (hwalk.value t expr))
  · exact handles_eachElement n.span hkey hvalue labels hfinish

omit hwalk in
/-- A break jumps to the end of a loop that was met. -/
theorem neutral_breakLoop (id : NodeId) (n : Node) :
    Neutral (breakLoop t id n : Lower σ Unit) fun _ => True := by
  unfold breakLoop
  cases t.enclosingLoop id with
  | error fault => exact neutral_throw fault
  | ok loop =>
    cases loop with
    | none => exact neutral_throw _
    | some l =>
      intro known hand s a s' h
      obtain ⟨_, _, hget, hrest⟩ := bind_eq_ok h
      cases hget
      cases hfinish : s.loopEnds.lookup l with
      | none =>
        rw [hfinish] at hrest
        cases hrest
      | some finish =>
        rw [hfinish] at hrest
        cases hrest
        refine ⟨trivial, _, Array.toList_push, Ledger.instruction rfl (fun k hk => ?_) _⟩
        obtain rfl := List.mem_singleton.mp hk
        obtain ⟨front, back, hends, -⟩ := List.lookup_eq_some_iff.mp hfinish
        refine Or.inr (Or.inr ?_)
        simp [LowerState.ends, hends]

end Rules

/-! ## Whole trees -/

/-- A node is lowered with care if the nodes below it are. -/
theorem careful_rule {t : Tree} {walk : Walk σ} (hwalk : Careful walk) : Careful (rule t walk) := by
  have hcovers := ledgered_covers (σ := σ) t
  intro id
  apply Neutral.of_step
  cases hn : t.node? id with
  | none =>
    apply Pairing.bind_same _ (Pairing.step_nodeAt (hcovers.fits id))
    intro n hsome
    rw [hn] at hsome
    cases hsome
  | some n =>
    by_cases hcontrol : n.kind.isControl = false
    · exact Pairing.visit_rule hn hcontrol
        ⟨fun c _ => hcovers.fits c, fun _ c _ _ => hwalk.value t c⟩ fun c _ => hwalk.visit c
    · rw [rule, nodeAt_eq hn, pure_bind]
      rcases n with ⟨kind, span, parent, info⟩
      cases kind with
      | block nodes => exact Pairing.step_statement (neutral_block hwalk id _).step
      | lambda body => exact Pairing.step_expression (neutral_lambda hwalk _ body).step
      | func isPub name function =>
        exact Pairing.step_statement (neutral_func hwalk _ isPub name function).step
      | ifChain conds block elseIfs elseBlock =>
        exact Pairing.step_statement (neutral_ifChain hwalk id _ elseIfs elseBlock).step
      | forIf sets conds body =>
        exact Pairing.step_statement (neutral_forIf hwalk id _ sets conds body).step
      | forIn key value expr body =>
        exact Pairing.step_statement (neutral_forIn hwalk id _ key value expr body).step
      | breakLoop => exact Pairing.step_statement (neutral_breakLoop id _).step
      | _ => exact absurd rfl hcontrol

/-- By the steps of the walk: each step follows a rule with a walk of one step less. -/
theorem careful_within (t : Tree) (steps : Nat) : Careful (within t steps : Walk σ) := by
  induction steps with
  | zero => exact fun id => neutral_throw _
  | succ steps ih => exact careful_rule ih

theorem neutral_root (t : Tree) (id : NodeId) : Neutral (root t id : Lower σ Unit) fun _ => True :=
  (neutral_nodeAt t id).bind fun _ _ => .of_step (Pairing.step_file
    ((ledgered_covers t).granted _) fun c _ => (careful_within t (enough t)).visit c)

/-! ## Programs -/

theorem neutral_forgetTree :
    Neutral (modify LowerState.forgetTree : Lower σ Unit) fun _ => True := by
  intro known hand s a s' h
  cases h
  exact ⟨trivial, [], (List.append_nil _).symm, ⟨[], .nothing s.names, fun _ => Nat.le_refl _⟩,
    fun _ hl => Or.inr hl, fun _ hl => (nomatch hl), fun _ hl => nomatch hl⟩

theorem neutral_units (us : List SourceUnit) : Neutral (units us : Lower σ Unit) fun _ => True := by
  induction us with
  | nil => exact neutral_pure trivial
  | cons u us ih =>
    refine neutral_forgetTree.bind fun _ _ => ?_
    exact (neutral_root u.tree u.root).bind fun _ _ => ih

/-- The call that starts a program names no label. -/
theorem isInert_operands_mainCall : ∀ o ∈ mainCall.operands, o.isInert = true := by
  have hcallee : (Instr.reference (.name mainName) .none).isInert = true := rfl
  have hargs : (Instr.args [] .none).isInert = true := rfl
  simp [mainCall, Instr.operands, hcallee, hargs]

theorem neutral_program (us : List SourceUnit) :
    Neutral (program us : Lower σ Unit) fun _ => True :=
  (neutral_units us).bind fun _ _ => neutral_push rfl isInert_operands_mainCall

/-- The labels of a program that was lowered were drawn, each is used at most once, and every jump
leads to one that is used. -/
theorem ledger_of_instructions {names : σ} {us : List SourceUnit} {root : List Instr}
    (h : instructions names us = .ok root) :
    (∃ drawn s, NameSupply.Draws names drawn s ∧
      ∀ l, (Instr.labelNames root).count l ≤ drawn.count l) ∧
    ∀ l ∈ Instr.jumpNames root, l ∈ Instr.labelNames root := by
  unfold instructions at h
  split at h
  · rename_i s hrun
    cases h
    obtain ⟨-, made, hout, ⟨drawn, hdraws, hcount⟩, -, hjumps, -⟩ :=
      neutral_program us [] [] _ _ _ hrun
    rw [show s.out.toList = made from hout]
    refine ⟨⟨drawn, s.names, hdraws, hcount⟩, fun l hl => ?_⟩
    rcases hjumps l hl with hmade | hhand | hknown | hends
    · exact hmade
    · cases hhand
    · cases hknown
    · cases hends
  · cases h

end BytecodeCompiler.Lower

namespace BytecodeCompiler

/-- Whatever the units are, if the supply of names never repeats itself, a program that was lowered
has every label once, and every jump in it leads to exactly one of them. So emission never misses a
label and never meets one twice. -/
theorem labels_closed_of_lowered {σ : Type} [NameSupply σ] {names : σ}
    (hnames : NameSupply.NeverRepeats names) {us : List SourceUnit} {root : List Instr}
    (h : Lower.instructions names us = .ok root) :
    (∀ l ∈ Instr.jumpNames root, (Instr.labelNames root).count l = 1) ∧
    (Instr.labelNames root).Nodup ∧
    ∀ files, (∀ labels, Instr.assemble files root ≠ .error (.danglingMarks labels)) ∧
      ∀ label, Instr.assemble files root ≠ .error (.duplicateLabel label) := by
  obtain ⟨⟨drawn, s, hdraws, hcount⟩, hjumps⟩ := Lower.ledger_of_instructions h
  have hnodup : (Instr.labelNames root).Nodup := by
    rw [List.nodup_iff_count_le_one]
    exact fun l => Nat.le_trans (hcount l)
      (List.nodup_iff_count_le_one.mp (hnames drawn s hdraws) l)
  refine ⟨fun l hl => List.count_eq_one_of_mem hnodup (hjumps l hl), hnodup, fun files => ?_⟩
  exact ⟨fun labels herror => (assemble_error_of_labels hnodup hjumps herror).1 labels rfl,
    fun label herror => (assemble_error_of_labels hnodup hjumps herror).2 label rfl⟩

/-- A file in which one loop stands twice, with a break in it under a condition. -/
def Tree.loopTwice : Tree :=
  ⟨#[⟨.literal, .none, some 3, ⟨none, some (.bool true), none, none, none⟩⟩,
    ⟨.breakLoop, .none, some 2, .empty⟩, ⟨.block [1], .none, some 3, .empty⟩,
    ⟨.ifChain [0] 2 [] none, .none, some 4, .empty⟩, ⟨.block [3], .none, some 5, .empty⟩,
    ⟨.forIf none [] 4, .none, some 6, .empty⟩, ⟨.file "f" [5, 5], .none, none, .empty⟩]⟩

/-- What the loop of `Tree.loopTwice` is lowered to, under the four labels that it draws. -/
def Instr.loopOnce (top finish chain yes : String) : Instr :=
  .block [.label (.name top) .none,
    .block [.compareJump (.value (.bool true) .none) (.value (.bool true) .none) (.name yes) .none,
      .jump (.name chain) .none, .label (.name yes) .none,
      .block [.jump (.name finish) .none] .none, .label (.name chain) .none] .none,
    .jump (.name top) .none, .label (.name finish) .none] .none

/-- The second time the loop stands in its file it draws new labels, and each break leads to the end
of the loop it stands in. -/
theorem labels_closed_of_lowered_loop :
    let root := [Instr.loopOnce "L0" "L1" "L2" "L3", .loopOnce "L4" "L5" "L6" "L7", Lower.mainCall]
    NameSupply.NeverRepeats SequentialNames.start ∧
    Lower.instructions SequentialNames.start [⟨.loopTwice, 6⟩] = .ok root ∧
    (∀ l ∈ Instr.jumpNames root, (Instr.labelNames root).count l = 1) ∧
    (Instr.labelNames root).Nodup ∧
    ∀ files, (∀ labels, Instr.assemble files root ≠ .error (.danglingMarks labels)) ∧
      ∀ label, Instr.assemble files root ≠ .error (.duplicateLabel label) := by
  intro root
  have hnames := SequentialNames.neverRepeats SequentialNames.start
  have hroot : Lower.instructions SequentialNames.start [⟨.loopTwice, 6⟩] = .ok root := by rfl
  exact ⟨hnames, hroot, labels_closed_of_lowered hnames hroot⟩

end BytecodeCompiler
