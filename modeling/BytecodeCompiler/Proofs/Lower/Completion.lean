import BytecodeCompiler.Proofs.Lower.PairedControl

-- Steps of lowering that do not fail. A step completes if it gives a result, whatever the state, as
-- long as the loops that breaks in it leave were met before. Steps that complete are a pairing that
-- takes no fault. A loop is noted before what is inside it, which may need it.

namespace BytecodeCompiler

open NameSupply (Draws)

/-- The loops whose ends are known. -/
def LowerState.metLoops {σ : Type} (s : LowerState σ) : List NodeId := s.loopEnds.map Prod.fst

namespace Lower

variable {σ : Type} [NameSupply σ] {α β : Type}

/-! ## Steps that complete -/

/-- How a step ends that does not fail: with a good result and no loop forgotten, or because the
supply of names, and nothing else, has come to its end. -/
inductive Ends (s : LowerState σ) (good : α → Prop) : EStateM.Result Fault (LowerState σ) α → Prop
  | done {a : α} {s' : LowerState σ} {drawn : List Ident} (hgood : good a)
      (hloops : ∀ l ∈ s.metLoops, l ∈ s'.metLoops) (hdraws : Draws s.names drawn s'.names) :
      Ends s good (.ok a s')
  | exhausted {s' : LowerState σ} {drawn : List Ident} (hdraws : Draws s.names drawn s'.names)
      (hnone : NameSupply.fresh s'.names = none) : Ends s good (.error .namesExhausted s')

/-- From every state in which the needed loops were met, the step does not fail. -/
def Completes (needs : NodeId → Prop) (m : Lower σ α) (good : α → Prop) : Prop :=
  ∀ s, (∀ l, needs l → l ∈ s.metLoops) → Ends s good (m s)

section Sequences

variable {needs needs' : NodeId → Prop} {good : α → Prop} {good' : β → Prop} {m : Lower σ α}
  {f : α → Lower σ β}

theorem Completes.bind (hm : Completes needs m good)
    (hf : ∀ a, good a → Completes needs (f a) good') : Completes needs (m >>= f) good' := by
  intro s hs
  have hfirst := hm s hs
  cases hrun : m s with
  | error fault s' =>
    rw [bind_of_error hrun]
    rw [hrun] at hfirst
    cases hfirst with
    | exhausted hdraws hnone => exact .exhausted hdraws hnone
  | ok a s' =>
    rw [bind_of_ok hrun]
    rw [hrun] at hfirst
    cases hfirst with
    | done hgood hloops hdraws =>
      have hlast := hf a hgood s' fun l hl => hloops l (hs l hl)
      generalize f a s' = result at hlast
      cases hlast with
      | done hgood' hloops' hdraws' =>
        exact .done hgood' (fun l hl => hloops' l (hloops l hl)) (hdraws.append hdraws')
      | exhausted hdraws' hnone => exact .exhausted (hdraws.append hdraws') hnone

theorem Completes.mono (hm : Completes needs m good) (hneeds : ∀ l, needs l → needs' l) :
    Completes needs' m good :=
  fun s hs => hm s fun l hl => hs l (hneeds l hl)

theorem Completes.weaken {other : α → Prop} (hm : Completes needs m good)
    (hgood : ∀ a, good a → other a) : Completes needs m other := by
  intro s hs
  have hend := hm s hs
  generalize m s = result at hend
  cases hend with
  | done ha hloops hdraws => exact .done (hgood _ ha) hloops hdraws
  | exhausted hdraws hnone => exact .exhausted hdraws hnone

/-- A step that changes neither the names nor the loops. -/
theorem Ends.unchanged {s s' : LowerState σ} {a : α} (ha : good a) (hnames : s'.names = s.names)
    (hloops : s'.loopEnds = s.loopEnds) : Ends s good (.ok a s') := by
  have hdraws : Draws s.names [] s'.names := by
    rw [hnames]
    exact .nothing s.names
  refine .done ha (fun l hl => ?_) hdraws
  rwa [LowerState.metLoops, hloops]

theorem completes_pure {a : α} (ha : good a) : Completes needs (pure a : Lower σ α) good :=
  fun _ _ => .unchanged ha rfl rfl

theorem completes_push (i : Instr) : Completes needs (push i : Lower σ Unit) fun _ => True :=
  fun _ _ => .unchanged trivial rfl rfl

theorem completes_fresh : Completes needs (fresh : Lower σ Ident) fun _ => True := by
  rintro ⟨names, loopEnds, processed, out⟩ _
  rw [fresh]
  cases hfresh : NameSupply.fresh names with
  | some drawn => exact .done trivial (fun l hl => hl) (Draws.one hfresh)
  | none => exact .exhausted (Draws.nothing names) hfresh

/-- Once a loop was noted, the steps that follow may need it. -/
theorem Completes.after_noteLoop {id : NodeId} {finish : Ident}
    (hm : Completes (fun l => needs l ∨ l = id) m good) :
    Completes needs (do noteLoop id finish; m) good := by
  intro s hs
  have hnoted : ∀ l, needs l ∨ l = id →
      l ∈ (⟨s.names, (id, finish) :: s.loopEnds, s.processed, s.out⟩ : LowerState σ).metLoops := by
    rintro l (hl | rfl)
    · exact List.mem_cons_of_mem _ (hs l hl)
    · exact List.mem_cons_self
  have hend := hm _ hnoted
  rw [bind_of_ok (rfl : noteLoop id finish s = .ok () _)]
  generalize m _ = result at hend
  cases hend with
  | done ha hloops hdraws =>
    exact .done ha (fun l hl => hloops l (List.mem_cons_of_mem _ hl)) hdraws
  | exhausted hdraws hnone => exact .exhausted hdraws hnone

theorem completes_inBlock {inside : Lower σ Unit}
    (hinside : Completes needs inside fun _ => True) :
    Completes needs (inBlock inside) fun _ => True := by
  intro s hs
  have hend := hinside ⟨s.names, s.loopEnds, s.processed, #[]⟩ hs
  simp only [inBlock]
  generalize inside _ = result at hend
  cases hend with
  | done ha hloops hdraws => exact .done trivial hloops hdraws
  | exhausted hdraws hnone => exact .exhausted hdraws hnone

/-- A step may be run from a state in which the needed loops were met, to see what it gives. -/
theorem Completes.of_run {other : α → Prop} (hm : Completes needs m good)
    (h : ∀ s a s', m s = .ok a s' → other a) : Completes needs m other := by
  intro s hs
  have hend := hm s hs
  generalize hrun : m s = result at hend
  cases hend with
  | done _ hloops hdraws => exact .done (h s _ _ hrun) hloops hdraws
  | exhausted hdraws hnone => exact .exhausted hdraws hnone

end Sequences

/-! ## The pairing -/

section Pairing

variable {needs : NodeId → Prop} {t : Tree} {walk : Walk σ}

/-- Lowering that does not fail, with the needed loops met before. -/
def completing (needs : NodeId → Prop) : Pairing σ σ where
  step rel m _ := Completes needs m fun a => ∃ b, rel a b
  accepts _ := True
  spans _ := True
  faults _ := False
  step_pure h := completes_pure ⟨_, h⟩
  step_throw h := h.elim
  step_bind hm hf := hm.bind fun a ⟨b, hab⟩ => hf a b hab
  step_push _ _ _ := (completes_push _).weaken fun _ _ => ⟨_, rfl, trivial⟩
  step_isProcessed _ _ _ _ := .unchanged ⟨_, rfl, trivial⟩ rfl rfl
  step_markProcessed _ _ _ := .unchanged ⟨_, rfl, trivial⟩ rfl rfl
  spans_none := trivial
  accepts_value _ _ _ := trivial
  accepts_wrapped _ _ _ _ := trivial
  accepts_iterable _ _ _ _ := trivial

theorem Completes.step {m m' : Lower σ Unit} (h : Completes needs m fun _ => True) :
    (completing needs).step (Same fun _ => True) m m' := h.weaken fun _ _ => ⟨_, rfl, trivial⟩

theorem Completes.visit {id : NodeId} (h : Completes needs (walk id) fun _ => True) :
    (completing needs).Visit walk walk id := h.weaken fun _ _ => ⟨_, rfl, fun _ _ => trivial⟩

theorem Completes.value {id : NodeId}
    (h : Completes needs (walk id) fun result => result.isSome = true) :
    (completing needs).Value t walk walk id := by
  refine h.bind fun result hresult => ?_
  cases result with
  | some i => exact completes_pure ⟨_, rfl, trivial⟩
  | none => cases hresult

def completingControl (needs : NodeId → Prop) : (completing (σ := σ) needs).Control where
  label _ _ := True
  row _ _ := True
  step_inBlock h :=
    (completes_inBlock (h.weaken fun _ _ => trivial)).weaken fun _ _ => ⟨[], trivial⟩
  push_block _ _ := (completes_push _).step
  push_label _ _ := (completes_push _).step
  push_jump _ _ := (completes_push _).step
  push_compareJump _ _ _ _ := (completes_push _).step

theorem completing_fresh :
    (completing (σ := σ) needs).step (fun _ _ => True) fresh fresh :=
  completes_fresh.weaken fun l _ => ⟨l, trivial⟩

theorem completing_takesBodies :
    (completing (σ := σ) needs).TakesBodies fun _ _ => True :=
  fun _ _ _ _ => (completes_push _).step

/-- A node can be lowered without a fault if it is there and has what is promised about it. -/
theorem completing_fits {id : NodeId} {n : Node} (hn : t.node? id = some n) (hsound : n.Sound t) :
    (completing (σ := σ) needs).Fits t id where
  missing hnone := by
    rw [hn] at hnone
    cases hnone
  span _ := trivial
  sound hm := by
    cases hn.symm.trans hm
    exact .inr hsound

/-! ## Loops -/

/-- A loop completes if its round does, and the round may break out of it. -/
theorem completes_loop {id : NodeId} {n : Node} {start : Lower σ Unit} {sets : List NodeId}
    {each : LoopLabels → Lower σ Unit} {conds : List NodeId} {block : NodeId}
    (hround : ∀ labels, (completing fun l => needs l ∨ l = id).step (Same fun _ => True)
      (round t walk n start sets each conds block labels)
      (round t walk n start sets each conds block labels)) :
    Completes needs (loop t walk id n start sets each conds block) fun _ => True := by
  refine completes_fresh.bind fun top _ => ?_
  refine completes_fresh.bind fun finish _ => ?_
  have hbody := (completingControl _).step_inBlock (hround ⟨top, finish⟩)
  exact Completes.after_noteLoop (Completes.bind hbody fun _ _ => completes_push _)

/-- A break finds the end of its loop if the loop was met. -/
theorem completes_breakLoop {id l : NodeId} (n : Node) (hloop : t.enclosingLoop id = .ok (some l))
    (hneeds : needs l) : Completes needs (breakLoop t id n : Lower σ Unit) fun _ => True := by
  intro s hs
  obtain ⟨finish, hfinish⟩ : ∃ finish, s.loopEnds.lookup l = some finish := by
    obtain ⟨⟨key, finish⟩, hmem, rfl⟩ := List.mem_map.mp (hs l hneeds)
    refine Option.ne_none_iff_exists'.mp fun hnone => ?_
    have habsent := List.lookup_eq_none_iff.mp hnone (key, finish) hmem
    simp at habsent
  simp only [breakLoop, hloop]
  rw [bind_of_ok (rfl : (get : Lower σ (LowerState σ)) s = .ok s s), hfinish]
  exact completes_push _ s hs

end Pairing

/-! ## What a rule gives -/

omit [NameSupply σ] in
theorem isSome_of_expression {m : Lower σ Instr} {s s' : LowerState σ} {r : Option Instr}
    (h : expression m s = .ok r s') : r.isSome = true := by
  obtain ⟨_, _, -, hpure⟩ := bind_eq_ok h
  cases hpure
  rfl

/-- An expression gives an operand. Only of an attribute this is left to its own expression. -/
theorem isSome_of_rule {t : Tree} {walk : Walk σ} {id : NodeId} {n : Node}
    (hn : t.node? id = some n) (hkind : n.kind.isExpression = true)
    (hattr : ∀ name expr, n.kind ≠ .structAttr name expr) {s s' : LowerState σ}
    {r : Option Instr} (h : rule t walk id s = .ok r s') : r.isSome = true := by
  rw [rule, nodeAt_eq hn, pure_bind] at h
  rcases n with ⟨kind, span, parent, info⟩
  cases kind with
  | structAttr name expr => exact absurd rfl (hattr name expr)
  | literal | ident | lambda | tuple | struct | array | index | call | dot | spread | shared | cast
  | ternary | binary | unary => exact isSome_of_expression h
  | _ => cases hkind

end Lower

end BytecodeCompiler
