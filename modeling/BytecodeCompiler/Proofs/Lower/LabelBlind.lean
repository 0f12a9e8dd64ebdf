import BytecodeCompiler.Lower.Program
import BytecodeCompiler.Proofs.Emission.Renamed
import BytecodeCompiler.Proofs.Lower.Labels
import BytecodeCompiler.Proofs.Lower.PairedControl
import BytecodeCompiler.Proofs.Names.Hashed
import BytecodeCompiler.Proofs.Names.Turns

-- The names of labels do not matter. Two lowerings of the same program that draw their labels from
-- different supplies go through the same steps and draw in the same turns. What the one makes is
-- what the other makes, but for the names of the labels, and the assembled code is the same.

namespace BytecodeCompiler

open NameSupply (Draws NeverRepeats NeverEnds Turns SameTurn partner)

namespace Lower

variable {σ τ : Type} [NameSupply σ] [NameSupply τ] (a : σ) (b : τ)

/-- Two states after the same steps, with labels from the one supply and from the other. -/
structure InStep (s : LowerState σ) (s' : LowerState τ) : Prop where
  names : ∃ pairs, Turns a b pairs s.names s'.names
  loopEnds : List.Forall₂ (fun e e' => e'.1 = e.1 ∧ SameTurn a b e.2 e'.2) s.loopEnds s'.loopEnds
  processed : s'.processed = s.processed

/-- The labels in the instructions were drawn. -/
def AllDrawn (made : List Instr) : Prop :=
  ∀ l ∈ Instr.labelNames made ++ Instr.jumpNames made, ∃ l', SameTurn a b l l'

/-- How the two lowerings end after a step: they made the same but for the names of labels, or they
failed alike, or one of them has no more names. -/
inductive EndsAlike {α β : Type} (rel : α → β → Prop) (s : LowerState σ) (s' : LowerState τ) :
    EStateM.Result Fault (LowerState σ) α → EStateM.Result Fault (LowerState τ) β → Prop
  | done {x : α} {y : β} {s₁ : LowerState σ} {s₁' : LowerState τ} {made : List Instr}
      (hrel : rel x y) (hstates : InStep a b s₁ s₁')
      (hout : s₁.out.toList = s.out.toList ++ made)
      (hout' : s₁'.out.toList = s'.out.toList ++ Instr.renameAll (partner a b) made)
      (hdrawn : AllDrawn a b made) : EndsAlike rel s s' (.ok x s₁) (.ok y s₁')
  | refused (fault : Fault) (s₁ : LowerState σ) (s₁' : LowerState τ) :
      EndsAlike rel s s' (.error fault s₁) (.error fault s₁')
  | noneLeft (hends : ¬ NeverEnds a) (s₁ : LowerState σ)
      (r : EStateM.Result Fault (LowerState τ) β) :
      EndsAlike rel s s' (.error .namesExhausted s₁) r
  | noneRight (hends : ¬ NeverEnds b) (r : EStateM.Result Fault (LowerState σ) α)
      (s₁' : LowerState τ) : EndsAlike rel s s' r (.error .namesExhausted s₁')

variable {a b}

theorem AllDrawn.append {made made' : List Instr} (h : AllDrawn a b made)
    (h' : AllDrawn a b made') : AllDrawn a b (made ++ made') := by
  intro l hl
  simp only [Instr.labelNames_append, Instr.jumpNames_append, List.mem_append] at hl
  rcases hl with (hl | hl) | hl | hl
  · exact h l (List.mem_append_left _ hl)
  · exact h' l (List.mem_append_left _ hl)
  · exact h l (List.mem_append_right _ hl)
  · exact h' l (List.mem_append_right _ hl)

theorem allDrawn_nil : AllDrawn a b [] := List.forall_mem_nil _

theorem allDrawn_of_isInert {i : Instr} (h : i.isInert = true) : AllDrawn a b [i] := by
  intro l hl
  rw [Instr.labelNames_of_isInert h, Instr.jumpNames_of_isInert h] at hl
  cases hl

/-- A step that appends nothing and leaves the two states in step. -/
theorem EndsAlike.still {α β : Type} {rel : α → β → Prop} {x : α} {y : β} {s s₁ : LowerState σ}
    {s' s₁' : LowerState τ} (hrel : rel x y) (hstates : InStep a b s₁ s₁')
    (hout : s₁.out = s.out) (hout' : s₁'.out = s'.out) :
    EndsAlike a b rel s s' (.ok x s₁) (.ok y s₁') := by
  have hmade : s₁.out.toList = s.out.toList ++ [] := by rw [hout, List.append_nil]
  have hmade' : s₁'.out.toList = s'.out.toList ++ Instr.renameAll (partner a b) [] := by
    simp [hout', Instr.renameAll]
  exact .done hrel hstates hmade hmade' allDrawn_nil

/-- The two steps end alike from all states that are in step. -/
def GoTogether (a : σ) (b : τ) {α β : Type} (rel : α → β → Prop) (m : Lower σ α)
    (m' : Lower τ β) : Prop :=
  ∀ s s', InStep a b s s' → EndsAlike a b rel s s' (m s) (m' s')

/-- Appending an instruction on one side and the renamed one on the other. -/
theorem goTogether_push {i i' : Instr} (hi : i' = i.rename (partner a b))
    (hdrawn : AllDrawn a b [i]) :
    GoTogether a b (Same fun _ => True) (push i) (push i') := by
  intro s s' hs
  subst hi
  exact .done ⟨rfl, trivial⟩ ⟨hs.names, hs.loopEnds, hs.processed⟩ Array.toList_push
    Array.toList_push hdrawn

theorem GoTogether.bind {α β γ δ : Type} {rel : α → β → Prop} {rel' : γ → δ → Prop} {m : Lower σ α}
    {m' : Lower τ β} {f : α → Lower σ γ} {f' : β → Lower τ δ} (hm : GoTogether a b rel m m')
    (hf : ∀ x y, rel x y → GoTogether a b rel' (f x) (f' y)) :
    GoTogether a b rel' (m >>= f) (m' >>= f') := by
  intro s s' hs
  have hfirst := hm s s' hs
  generalize hrun : m s = r at hfirst
  generalize hrun' : m' s' = r' at hfirst
  cases hfirst with
  | refused fault s₁ s₁' =>
    rw [bind_of_error hrun, bind_of_error hrun']
    exact .refused fault s₁ s₁'
  | noneLeft hends s₁ =>
    rw [bind_of_error hrun]
    exact .noneLeft hends s₁ _
  | noneRight hends _ s₁' =>
    rw [bind_of_error hrun']
    exact .noneRight hends _ s₁'
  | @done x y s₁ s₁' made hrel hstates hout hout' hdrawn =>
    rw [bind_of_ok hrun, bind_of_ok hrun']
    have hlast := hf x y hrel s₁ s₁' hstates
    generalize f x s₁ = r at hlast
    generalize f' y s₁' = r' at hlast
    cases hlast with
    | refused fault s₂ s₂' => exact .refused fault s₂ s₂'
    | noneLeft hends s₂ => exact .noneLeft hends s₂ _
    | noneRight hends _ s₂' => exact .noneRight hends _ s₂'
    | @done _ _ _ _ made' hrel hstates hout₂ hout₂' hdrawn' =>
      refine .done hrel hstates ?_ ?_ (hdrawn.append hdrawn')
      · rw [hout₂, hout, List.append_assoc]
      · rw [hout₂', hout', Instr.renameAll_append, List.append_assoc]

/-- Lowering with labels from one supply next to lowering with labels from another. -/
def labelBlind (a : σ) (b : τ) : Pairing σ τ where
  step := GoTogether a b
  accepts i := i.isInert = true
  spans _ := True
  faults _ := True
  step_pure h s s' hs := .still h hs rfl rfl
  step_throw {_ _ _ fault} _ s s' _ := .refused fault s s'
  step_bind := GoTogether.bind
  step_push hi _ ho :=
    have hinert := Instr.isInert_of_operands (Instr.isStraight_of_isWork hi) ho
    goTogether_push (Instr.rename_of_isInert _ hinert).symm (allDrawn_of_isInert hinert)
  step_isProcessed id flag s s' hs := by
    refine .still ⟨?_, trivial⟩ hs rfl rfl
    rw [hs.processed]
  step_markProcessed id s s' hs :=
    .still ⟨rfl, trivial⟩ ⟨hs.names, hs.loopEnds, by rw [hs.processed]⟩ rfl rfl
  spans_none := trivial
  accepts_value v _ _ := Instr.isInert_value v _
  accepts_wrapped ty _ _ h := Instr.isInert_wrapped ty _ h
  accepts_iterable ty _ _ h := Instr.isInert_iterable ty _ h

theorem labelBlind_covers (a : σ) (b : τ) (t : Tree) : (labelBlind a b).Covers t where
  faults _ := trivial
  spans _ := trivial

/-! ## Labels, blocks and loops -/

section Control

theorem goTogether_fresh : GoTogether a b (SameTurn a b) fresh fresh := by
  rintro ⟨names, loopEnds, processed, out⟩ ⟨names', loopEnds', processed', out'⟩ hs
  obtain ⟨pairs, hturns⟩ := hs.names
  simp only [fresh]
  cases hfresh : NameSupply.fresh names with
  | none => exact .noneLeft (fun hends => hends _ _ hturns.1 hfresh) _ _
  | some drawn =>
    obtain ⟨l, x⟩ := drawn
    cases hfresh' : NameSupply.fresh names' with
    | none => exact .noneRight (fun hends => hends _ _ hturns.2 hfresh') _ _
    | some drawn' =>
      obtain ⟨l', y⟩ := drawn'
      have hnext := hturns.next hfresh hfresh'
      have hturn : SameTurn a b l l' :=
        ⟨_, x, y, hnext, List.mem_append_right _ List.mem_cons_self⟩
      exact .still hturn ⟨⟨_, hnext⟩, hs.loopEnds, hs.processed⟩ rfl rfl

/-- What was lowered into the new blocks is the same but for the names of labels. -/
theorem goTogether_inBlock {m : Lower σ Unit} {m' : Lower τ Unit}
    (h : GoTogether a b (Same fun _ => True) m m') :
    GoTogether a b (fun is is' => is' = Instr.renameAll (partner a b) is ∧ AllDrawn a b is)
      (inBlock m) (inBlock m') := by
  rintro ⟨names, loopEnds, processed, out⟩ ⟨names', loopEnds', processed', out'⟩ hs
  have hinside := h ⟨names, loopEnds, processed, #[]⟩ ⟨names', loopEnds', processed', #[]⟩
    ⟨hs.names, hs.loopEnds, hs.processed⟩
  simp only [inBlock]
  generalize m ⟨names, loopEnds, processed, #[]⟩ = r at hinside
  generalize m' ⟨names', loopEnds', processed', #[]⟩ = r' at hinside
  cases hinside with
  | refused fault s₁ s₁' => exact .refused fault _ _
  | noneLeft hends s₁ => exact .noneLeft hends _ _
  | noneRight hends _ s₁' => exact .noneRight hends _ _
  | done _ hstates hout hout' hdrawn =>
    rw [List.nil_append] at hout hout'
    exact .still ⟨by rw [hout, hout'], by rwa [hout]⟩
      ⟨hstates.names, hstates.loopEnds, hstates.processed⟩ rfl rfl

/-- The labels in an instruction were drawn if those in the row that it holds were. -/
theorem AllDrawn.wrap {i : Instr} {is : List Instr} (h : AllDrawn a b is)
    (hnames : Instr.labelNames [i] = Instr.labelNames is ∧
      Instr.jumpNames [i] = Instr.jumpNames is) : AllDrawn a b [i] := by
  unfold AllDrawn
  rw [hnames.1, hnames.2]
  exact h

theorem allDrawn_of_sameTurn {i : Instr} {l l' : Ident} (h : SameTurn a b l l')
    (hnames : ∀ k ∈ Instr.labelNames [i] ++ Instr.jumpNames [i], k = l) : AllDrawn a b [i] := by
  intro k hk
  obtain rfl := hnames k hk
  exact ⟨l', h⟩

/-- Labels go together that are drawn in the same turn. -/
def labelBlindControl (ha : NeverRepeats a) : (labelBlind a b).Control where
  label := SameTurn a b
  row is is' := is' = Instr.renameAll (partner a b) is ∧ AllDrawn a b is
  step_inBlock := goTogether_inBlock
  push_block {is is' span} _ h := by
    obtain ⟨rfl, hdrawn⟩ := h
    exact goTogether_push rfl (hdrawn.wrap (Instr.names_block _ span))
  push_label {l l' span} _ h := by
    apply goTogether_push
    · rw [Instr.rename, h.partner_eq ha]
    · exact allDrawn_of_sameTurn h fun _ hk => List.mem_singleton.mp hk
  push_jump {l l' span} _ h := by
    apply goTogether_push
    · rw [Instr.rename, h.partner_eq ha]
    · exact allDrawn_of_sameTurn h fun _ hk => List.mem_singleton.mp hk
  push_compareJump {x y l l' span} _ hx hy h := by
    apply goTogether_push
    · rw [Instr.rename, h.partner_eq ha, Instr.rename_of_isInert _ hx, Instr.rename_of_isInert _ hy]
    · obtain ⟨hlabels, hjumps⟩ := Instr.names_compareJump hx hy l span
      apply allDrawn_of_sameTurn h
      simp [hlabels, hjumps]

/-- Two loops that were noted together end with labels of the same turn. -/
theorem lookup_of_forall₂ {ends ends' : List (NodeId × Ident)}
    (h : List.Forall₂ (fun e e' => e'.1 = e.1 ∧ SameTurn a b e.2 e'.2) ends ends') (id : NodeId) :
    Option.Rel (SameTurn a b) (ends.lookup id) (ends'.lookup id) := by
  induction h with
  | nil => exact .none
  | @cons e e' ends ends' hfirst _ ih =>
    obtain ⟨loop, finish⟩ := e
    obtain ⟨loop', finish'⟩ := e'
    obtain ⟨rfl, hturn⟩ := hfirst
    simp only [List.lookup_cons]
    split
    · exact .some hturn
    · exact ih

theorem labelBlind_complete (ha : NeverRepeats a) (t : Tree) :
    (labelBlindControl (b := b) ha).Complete t where
  fresh := goTogether_fresh
  takesBodies signature span _ h := by
    obtain ⟨rfl, hdrawn⟩ := h
    exact goTogether_push rfl (hdrawn.wrap (Instr.names_lambda signature _ span))
  note id l l' hlabel s s' hs :=
    .still ⟨rfl, trivial⟩ ⟨hs.names, .cons ⟨rfl, hlabel⟩ hs.loopEnds, hs.processed⟩ rfl rfl
  leave {id n} _ := by
    unfold breakLoop
    cases t.enclosingLoop id with
    | error fault => exact (labelBlind a b).step_throw trivial
    | ok found =>
      cases found with
      | none => exact (labelBlind a b).step_throw trivial
      | some loop =>
        intro s s' hs
        have hget : (get : Lower σ (LowerState σ)) s = .ok s s := rfl
        have hget' : (get : Lower τ (LowerState τ)) s' = .ok s' s' := rfl
        have hfinish := lookup_of_forall₂ hs.loopEnds loop
        simp only [bind_of_ok hget, bind_of_ok hget']
        generalize s.loopEnds.lookup loop = finish at hfinish ⊢
        generalize s'.loopEnds.lookup loop = finish' at hfinish ⊢
        cases hfinish with
        | none => exact .refused _ s s'
        | some hturn => exact (labelBlindControl ha).push_jump trivial hturn s s' hs

end Control

/-! ## Programs -/

theorem goTogether_forgetTree : GoTogether a b (Same fun _ => True)
    (modify LowerState.forgetTree) (modify LowerState.forgetTree) :=
  fun _ _ hs => .still ⟨rfl, trivial⟩ ⟨hs.names, .nil, rfl⟩ rfl rfl

theorem goTogether_units (ha : NeverRepeats a) (us : List SourceUnit) :
    GoTogether a b (Same fun _ => True) (units us) (units us) := by
  induction us with
  | nil => exact (labelBlind a b).pure_same trivial
  | cons u us ih =>
    apply (labelBlind a b).bind_same goTogether_forgetTree
    intro _ _
    have hroot := (labelBlind_complete ha u.tree).step_root (labelBlind_covers a b u.tree) u.root
    exact (labelBlind a b).bind_same hroot fun _ _ => ih

theorem goTogether_program (ha : NeverRepeats a) (us : List SourceUnit) :
    GoTogether a b (Same fun _ => True) (program us) (program us) := by
  apply (labelBlind a b).bind_same (goTogether_units ha us)
  intro _ _
  exact (labelBlind a b).step_push rfl trivial isInert_operands_mainCall

theorem inStep_ofNames (a : σ) (b : τ) : InStep a b (.ofNames a) (.ofNames b) :=
  ⟨⟨[], .nothing a, .nothing b⟩, .nil, rfl⟩

/-- On names that were drawn, the partner of a name is given by a permutation of all names. -/
theorem exists_perm_of_allDrawn (ha : NeverRepeats a) (hb : NeverRepeats b) {made : List Instr}
    (h : AllDrawn a b made) :
    ∃ g : Equiv.Perm Ident, Instr.renameAll (partner a b) made = Instr.renameAll g made := by
  obtain ⟨g, hg⟩ := NameSupply.exists_perm_of_injOn (partner a b)
    (Instr.labelNames made ++ Instr.jumpNames made) fun l hl m hm =>
      NameSupply.partner_injOn ha hb (h l hl) (h m hm)
  refine ⟨g, Instr.renameAll_congr made (fun l hl => ?_) fun l hl => ?_⟩
  · exact (hg l (List.mem_append_left _ hl)).symm
  · exact (hg l (List.mem_append_right _ hl)).symm

end Lower

open Lower in
/-- The units give the same program with labels from either supply. Lowering succeeds for both and
gives the same instructions but for a permutation of the names of labels, and then the code and the
source map are the same, or both are refused alike; or lowering fails for both with the same fault;
or one of the supplies has no more names. -/
def SameProgram {σ τ : Type} [NameSupply σ] [NameSupply τ] (a : σ) (b : τ) (us : List SourceUnit) :
    Prop :=
  (∃ (body : List Instr) (g : Equiv.Perm Ident), instructions a us = .ok body ∧
    instructions b us = .ok (Instr.renameAll g body) ∧
    ∀ files, Instr.assemble files (Instr.renameAll g body) =
      (Instr.assemble files body).mapError (Fault.rename g)) ∨
  (∃ fault, instructions a us = .error fault ∧ instructions b us = .error fault) ∨
  (instructions a us = .error .namesExhausted ∧ ¬ NeverEnds a) ∨
  (instructions b us = .error .namesExhausted ∧ ¬ NeverEnds b)

theorem sameProgram {σ τ : Type} [NameSupply σ] [NameSupply τ] {a : σ} {b : τ}
    (ha : NeverRepeats a) (hb : NeverRepeats b) (us : List SourceUnit) : SameProgram a b us := by
  have hrun := Lower.goTogether_program ha us _ _ (Lower.inStep_ofNames a b)
  unfold SameProgram Lower.instructions
  generalize Lower.program us (.ofNames a) = r at hrun ⊢
  generalize Lower.program us (.ofNames b) = r' at hrun ⊢
  cases hrun with
  | @done _ _ s s' made _ _ hout hout' hdrawn =>
    left
    obtain ⟨g, hg⟩ := Lower.exists_perm_of_allDrawn ha hb hdrawn
    have hbody : s.out.toList = made := hout
    have hbody' : s'.out.toList = Instr.renameAll g made := hout'.trans hg
    exact ⟨made, g, congrArg Except.ok hbody, congrArg Except.ok hbody',
      fun files => assemble_renameAll g.injective files made⟩
  | refused fault s s' => exact .inr (.inl ⟨fault, rfl, rfl⟩)
  | noneLeft hends s => exact .inr (.inr (.inl ⟨rfl, hends⟩))
  | noneRight hends _ s' => exact .inr (.inr (.inr ⟨rfl, hends⟩))

/-- The names of labels never matter: two supplies that do not repeat a name give the same program.
In particular hashed names do so, whatever the hash and the seeds are. -/
theorem label_names_do_not_matter :
    (∀ (σ τ : Type) [NameSupply σ] [NameSupply τ] (a : σ) (b : τ), NeverRepeats a → NeverRepeats b →
      ∀ us, SameProgram a b us) ∧
    ∀ hash seed seed' us,
      SameProgram (HashedNames.ofHash hash seed) (HashedNames.ofHash hash seed') us :=
  ⟨fun _ _ _ _ _ _ ha hb us => sameProgram ha hb us, fun _ _ _ us =>
    sameProgram (HashedNames.neverRepeats _) (HashedNames.neverRepeats _) us⟩

/-- The loop that stands twice in its file, with labels that are counted from zero and from five. -/
theorem label_names_do_not_matter_loop :
    NeverRepeats (⟨0⟩ : SequentialNames) ∧ NeverRepeats (⟨5⟩ : SequentialNames) ∧
    Lower.instructions (⟨0⟩ : SequentialNames) [⟨.loopTwice, 6⟩] = .ok
      [.loopOnce "L0" "L1" "L2" "L3", .loopOnce "L4" "L5" "L6" "L7", Lower.mainCall] ∧
    Lower.instructions (⟨5⟩ : SequentialNames) [⟨.loopTwice, 6⟩] = .ok
      [.loopOnce "L5" "L6" "L7" "L8", .loopOnce "L9" "L10" "L11" "L12", Lower.mainCall] ∧
    SameProgram (⟨0⟩ : SequentialNames) (⟨5⟩ : SequentialNames) [⟨.loopTwice, 6⟩] := by
  have hzero := SequentialNames.neverRepeats ⟨0⟩
  have hfive := SequentialNames.neverRepeats ⟨5⟩
  refine ⟨hzero, hfive, rfl, rfl, ?_⟩
  exact label_names_do_not_matter.1 _ _ _ _ hzero hfive _

end BytecodeCompiler
