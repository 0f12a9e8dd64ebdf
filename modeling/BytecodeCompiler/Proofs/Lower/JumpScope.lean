import BytecodeCompiler.Proofs.Lower.Labels
import BytecodeCompiler.Proofs.Lower.Nested

-- Where jumps lead. A jump sees the labels that stand in its own block and in the blocks around it,
-- up to the function that it stands in. In lowered code every jump leads to a label that it sees:
-- the labels of a chain stand in the block of the chain, those of a loop in the block of the loop,
-- and a break stands in the block of the loop that it leaves.

namespace BytecodeCompiler

namespace Instr

def label? : Instr → Option Ident
  | .label name _ => some name
  | _ => none

/-- The labels that stand in a row itself, and not in a block inside. -/
def ownLabels (is : List Instr) : List Ident := is.filterMap label?

mutual

/-- Whether all jumps in the instruction lead to labels that they see, if these labels are seen from
outside. Only jumps, blocks and functions hold a jump. -/
def staysIn (seen : List Ident) : Instr → Bool
  | .label .. => true
  | .jump l _ => seen.contains l
  | .compareJump a b l _ => a.isInert && b.isInert && seen.contains l
  | .block body _ => allStayIn (ownLabels body ++ seen) body
  | .lambda _ body _ => allStayIn (ownLabels body) body
  | i => i.isInert

def allStayIn (seen : List Ident) : List Instr → Bool
  | [] => true
  | i :: is => i.staysIn seen && allStayIn seen is

end

theorem append_subset_append {own seen seen' : List Ident} (h : seen ⊆ seen') :
    own ++ seen ⊆ own ++ seen' :=
  List.append_subset.mpr ⟨List.subset_append_left _ _, List.subset_append_of_subset_right _ h⟩

mutual

theorem staysIn_mono {seen seen' : List Ident} (hseen : seen ⊆ seen') (i : Instr)
    (h : i.staysIn seen = true) : i.staysIn seen' = true := by
  cases i with
  | jump l span =>
    simp only [staysIn, List.contains_iff_mem] at h ⊢
    exact hseen h
  | compareJump a b l span =>
    simp only [staysIn, Bool.and_eq_true, List.contains_iff_mem] at h ⊢
    exact ⟨h.1, hseen h.2⟩
  | block body span =>
    exact allStayIn_mono (append_subset_append hseen) body h
  | _ => exact h

theorem allStayIn_mono {seen seen' : List Ident} (hseen : seen ⊆ seen') (is : List Instr)
    (h : allStayIn seen is = true) : allStayIn seen' is = true := by
  cases is with
  | nil => rfl
  | cons i is =>
    simp only [allStayIn, Bool.and_eq_true] at h ⊢
    exact ⟨staysIn_mono hseen i h.1, allStayIn_mono hseen is h.2⟩

end

theorem allStayIn_append {seen : List Ident} {is js : List Instr} (h : allStayIn seen is = true)
    (h' : allStayIn seen js = true) : allStayIn seen (is ++ js) = true := by
  induction is with
  | nil => exact h'
  | cons i is ih =>
    simp only [allStayIn, Bool.and_eq_true] at h
    simp [allStayIn, h.1, ih h.2]

theorem ownLabels_append (is js : List Instr) :
    ownLabels (is ++ js) = ownLabels is ++ ownLabels js := List.filterMap_append

/-! ## Closed rows -/

/-- All jumps in a row lead to labels that they see, if these labels are seen from outside. -/
def Closed (seen : List Ident) (is : List Instr) : Prop :=
  allStayIn (ownLabels is ++ seen) is = true

variable {seen : List Ident} {is js : List Instr}

theorem closed_nil : Closed seen [] := rfl

theorem Closed.mono {seen' : List Ident} (h : Closed seen is) (hseen : seen ⊆ seen') :
    Closed seen' is := allStayIn_mono (append_subset_append hseen) is h

theorem Closed.append (h : Closed seen is) (h' : Closed seen js) : Closed seen (is ++ js) := by
  unfold Closed
  rw [ownLabels_append]
  apply allStayIn_append
  · apply allStayIn_mono _ is h
    intro l hl
    simp only [List.mem_append] at hl ⊢
    tauto
  · apply allStayIn_mono _ js h'
    intro l hl
    simp only [List.mem_append] at hl ⊢
    tauto

theorem closed_singleton {i : Instr} (h : i.staysIn seen = true) : Closed seen [i] := by
  have hown : seen ⊆ ownLabels [i] ++ seen := List.subset_append_right _ _
  simp [Closed, allStayIn, staysIn_mono hown i h]

theorem staysIn_of_isWork {i : Instr} (h : i.isWork = true)
    (ho : ∀ o ∈ i.operands, o.isInert = true) : i.staysIn seen = true := by
  cases i with
  | jump | compareJump | block | lambda | label => cases h
  | _ => exact isInert_of_operands rfl ho

/-- Labels in hand are seen by a row in which they stand. -/
theorem Closed.drop {hand : List Ident} (h : Closed (hand ++ seen) is)
    (hhand : hand ⊆ ownLabels is) : Closed seen is := by
  apply allStayIn_mono _ is h
  intro l hl
  simp only [List.mem_append] at hl ⊢
  rcases hl with hl | hl | hl
  · exact Or.inl hl
  · exact Or.inl (hhand hl)
  · exact Or.inr hl

end Instr

namespace Lower

variable {σ : Type}

/-! ## Steps that make closed rows -/

/-- All jumps in what is made lead to labels that they see, with these labels seen from outside. -/
def closed (seen : List Ident) : Pairing σ σ :=
  .rows (Instr.Closed seen) (fun i => i.isInert = true) (fun _ => True) Instr.closed_nil
    Instr.Closed.append
    (fun hi _ ho => Instr.closed_singleton (Instr.staysIn_of_isWork hi ho)) trivial
    (fun v _ _ => Instr.isInert_value v _) (fun ty _ _ h => Instr.isInert_wrapped ty _ h)
    fun ty _ _ h => Instr.isInert_iterable ty _ h

theorem closed_covers (seen : List Ident) (t : Tree) : (closed (σ := σ) seen).Covers t where
  faults _ := trivial
  spans _ := trivial

section Steps

variable {α β γ : Type} {hand seen seen' : List Ident} {rel : α → β → Prop} {m : Lower σ α}
  {m' : Lower σ β} {l : Ident}

theorem closed_mono (hm : (closed seen).step rel m m') (hseen : seen ⊆ seen') :
    (closed seen').step rel m m' :=
  hm.weaken fun _ _ ⟨hmade, hrel⟩ => ⟨hmade.mono hseen, hrel⟩

/-- Blocks may use the labels that are seen around them. -/
def closedControl (seen : List Ident) : (closed (σ := σ) seen).Control where
  label l _ := l ∈ seen
  row is _ := Instr.Closed seen is
  step_inBlock h := (emits_inBlock (h.weaken fun _ _ hmade => hmade.1)).weaken
    fun _ is ⟨hmade, his⟩ => ⟨by rw [hmade]; exact Instr.closed_nil, is, his⟩
  push_block _ h := emits_push ⟨Instr.closed_singleton h, _, rfl, trivial⟩
  push_label _ _ := emits_push ⟨Instr.closed_singleton rfl, _, rfl, trivial⟩
  push_jump _ h :=
    emits_push ⟨Instr.closed_singleton (by simpa [Instr.staysIn] using h), _, rfl, trivial⟩
  push_compareJump {a b l _ span} _ ha hb h := by
    have ha' : a.isInert = true := ha
    have hb' : b.isInert = true := hb
    have hstays : (Instr.compareJump a b l span).staysIn seen = true := by
      simp [Instr.staysIn, ha', hb', h]
    exact emits_push ⟨Instr.closed_singleton hstays, _, rfl, trivial⟩

theorem closed_jump (span : Span) (hl : l ∈ seen) :
    (closed (σ := σ) seen).step (Same fun _ => True) (push (.jump l span)) (push (.jump l span)) :=
  (closedControl seen).push_jump trivial hl

/-- Whatever the walk makes is closed with these labels. -/
def Sees (seen : List Ident) (walk : Walk σ) : Prop := ∀ c, (closed seen).Visit walk walk c

theorem Sees.mono {walk : Walk σ} (h : Sees seen walk) (hseen : seen ⊆ seen') : Sees seen' walk :=
  fun c => closed_mono (h c) hseen

/-- The body of a function sees its own labels only. -/
theorem closed_takesBodies :
    (closed (σ := σ) seen).TakesBodies fun is _ => Instr.Closed [] is := by
  intro is _ signature span _ h
  unfold Instr.Closed at h
  rw [List.append_nil] at h
  exact emits_push ⟨Instr.closed_singleton h, _, rfl, trivial⟩

/-- All labels in hand are put into the row at hand, and with them the row is closed. -/
def Puts (hand seen : List Ident) (m : Lower σ α) : Prop :=
  Emits m fun made _ => Instr.Closed (hand ++ seen) made ∧ hand ⊆ Instr.ownLabels made

theorem Puts.closed (h : Puts hand seen m) : Emits m fun made _ => Instr.Closed seen made :=
  h.weaken fun _ _ ⟨hmade, hhand⟩ => hmade.drop hhand

theorem puts_bind {f : α → Lower σ γ} (hm : (closed (hand ++ seen)).step rel m m')
    (hf : ∀ a b, rel a b → Puts hand seen (f a)) : Puts hand seen (m >>= f) := by
  apply hm.bind
  rintro a made ⟨hmade, b, hrel⟩
  apply (hf a b hrel).weaken
  rintro made' _ ⟨hmade', hhand⟩
  refine ⟨hmade.append hmade', fun l hl => ?_⟩
  rw [Instr.ownLabels_append]
  exact List.mem_append_right _ (hhand hl)

theorem puts_nothing (a : α) : Puts [] seen (pure a : Lower σ α) :=
  emits_pure ⟨Instr.closed_nil, List.nil_subset _⟩

theorem puts_label (l : Ident) (span : Span) : Puts (σ := σ) [l] seen (push (.label l span)) :=
  emits_push ⟨Instr.closed_singleton rfl, List.Subset.refl _⟩

/-- A label that is put first is seen by the rest. -/
theorem puts_label_bind {f : Lower σ γ} (span : Span) (hf : Puts hand (l :: seen) f) :
    Puts (l :: hand) seen (do push (.label l span); f) := by
  have hput : Puts (σ := σ) [l] [] (push (.label l span)) := puts_label l span
  apply hput.bind
  rintro _ made ⟨hmade, hlabel⟩
  apply hf.weaken
  rintro made' _ ⟨hmade', hhand⟩
  have hseen : hand ++ l :: seen ⊆ l :: hand ++ seen := by
    intro k hk
    simp only [List.mem_append, List.mem_cons] at hk ⊢
    tauto
  refine ⟨(hmade.mono (by simp)).append (hmade'.mono hseen), ?_⟩
  rw [Instr.ownLabels_append]
  exact List.cons_subset.mpr ⟨List.mem_append_left _ (hlabel List.mem_cons_self),
    List.subset_append_of_subset_right _ hhand⟩

/-- A label that is put last is seen by what comes before. -/
theorem Puts.bind_label (span : Span) (hm : Puts hand (l :: seen) m) :
    Puts (l :: hand) seen (do let _ ← m; push (.label l span)) := by
  apply hm.bind
  rintro _ made ⟨hmade, hhand⟩
  apply emits_push
  have hseen : hand ++ l :: seen ⊆ l :: hand ++ seen := by
    intro k hk
    simp only [List.mem_append, List.mem_cons] at hk ⊢
    tauto
  refine ⟨(hmade.mono hseen).append (Instr.closed_singleton rfl), ?_⟩
  rw [Instr.ownLabels_append]
  exact List.cons_subset.mpr ⟨List.mem_append_right _ List.mem_cons_self,
    List.subset_append_of_subset_left _ hhand⟩

end Steps

/-! ## Chains -/

section Chains

variable {t : Tree} {walk : Walk σ} {seen : List Ident}

theorem closed_guards (hwalk : Sees seen walk) (span : Span) (truth : Bool) {l : Ident}
    (hl : l ∈ seen) (conds : List NodeId) :
    (closed seen).step (Same fun _ => True) (guards t walk span truth l conds)
      (guards t walk span truth l conds) :=
  (closedControl seen).step_guards truth trivial hl (fun c _ => (closed_covers seen t).fits c)
    fun c _ => (hwalk c).value (closed_covers seen t).lenient ((closed_covers seen t).fits c)

/-- The labelled blocks put their labels, and jump to the end only. -/
theorem puts_labelled (hwalk : Sees seen walk) (span : Span) {finish : Ident}
    (hfinish : finish ∈ seen) (blocks : List (Ident × NodeId)) :
    Puts (blocks.map Prod.fst) seen (labelled walk span finish blocks) := by
  induction blocks generalizing seen with
  | nil => exact puts_nothing _
  | cons first others ih =>
    obtain ⟨label, block⟩ := first
    have hinside : Sees (label :: seen) walk := hwalk.mono (List.subset_cons_self _ _)
    have hseen : label :: seen ⊆ others.map Prod.fst ++ label :: seen :=
      List.subset_append_right _ _
    cases others with
    | nil =>
      apply puts_label_bind
      apply puts_bind (hinside block)
      intro _ _ _
      exact puts_nothing _
    | cons next others =>
      apply puts_label_bind
      apply puts_bind (hinside.mono hseen block)
      intro _ _ _
      apply puts_bind (closed_jump span (hseen (List.mem_cons_of_mem _ hfinish)))
      intro _ _ _
      exact ih hinside (List.mem_cons_of_mem _ hfinish)

variable [NameSupply σ]

/-- The guards jump to the labels of the branches. -/
theorem emits_branches (hwalk : Sees seen walk) (span : Span)
    (ids : List NodeId) :
    Emits (branches t walk span ids) fun made blocks =>
      Instr.Closed (blocks.map Prod.fst ++ seen) made := by
  induction ids with
  | nil => exact emits_pure Instr.closed_nil
  | cons id ids ih =>
    apply (emits_nodeAt t id).bind
    rintro n _ ⟨rfl, -⟩
    split
    · rename_i conds block elseIfs elseBlock hkind
      apply emits_fresh.bind
      rintro label _ rfl
      have hinside : Sees (label :: seen) walk := hwalk.mono (List.subset_cons_self _ _)
      apply (closed_guards hinside span true List.mem_cons_self conds).bind
      rintro _ made ⟨hmade, -⟩
      apply ih.bind
      intro others made' hmade'
      apply emits_pure
      simp only [List.map_cons, List.cons_append, List.nil_append, List.append_nil]
      have hlabel : label :: seen ⊆ label :: (others.map Prod.fst ++ seen) :=
        List.cons_subset_cons _ (List.subset_append_right _ _)
      exact (hmade.mono hlabel).append (hmade'.mono (List.subset_cons_self _ _))
    · exact emits_throw _

/-- A chain puts all its labels into the block that it stands in. -/
theorem emits_ifChain (hwalk : Sees seen walk) (id : NodeId) (n : Node)
    (elseIfs : List NodeId) (elseBlock : Option NodeId) :
    Emits (ifChain t walk id n elseIfs elseBlock) fun made _ => Instr.Closed seen made := by
  apply emits_fresh.bind
  rintro finish _ rfl
  apply (emits_branches hwalk n.span (id :: elseIfs)).bind
  intro blocks made hmade
  have hrest : Puts (finish :: blocks.map Prod.fst) seen (do
      all walk elseBlock.toList
      push (.jump finish n.span)
      labelled walk n.span finish blocks
      push (.label finish n.span)) := by
    have hsub : seen ⊆ finish :: blocks.map Prod.fst ++ seen := List.subset_append_right _ _
    apply puts_bind (Pairing.step_all fun c _ => hwalk.mono hsub c)
    intro _ _ _
    apply puts_bind (closed_jump n.span List.mem_cons_self)
    intro _ _ _
    apply Puts.bind_label
    exact puts_labelled (hwalk.mono (List.subset_cons_self _ _)) n.span List.mem_cons_self blocks
  apply hrest.weaken
  rintro made' _ ⟨hmade', hhand⟩
  have hall : Instr.Closed (finish :: blocks.map Prod.fst ++ seen) (made ++ made') :=
    (hmade.mono (List.subset_cons_self _ _)).append hmade'
  apply hall.drop
  rw [Instr.ownLabels_append]
  exact List.subset_append_of_subset_right _ hhand

end Chains

/-! ## Loops -/

section Loops

variable {t : Tree} {walk : Walk σ}

theorem closed_eachElement (span : Span) {key value : Option Instr}
    (hkey : ∀ i ∈ key, i.isInert = true) (hvalue : ∀ i ∈ value, i.isInert = true)
    (labels : LoopLabels) :
    (closed (σ := σ) [labels.finish]).step (Same fun _ => True) (eachElement span key value labels)
      (eachElement span key value labels) := by
  have hfinish : labels.finish ∈ [labels.finish] := List.mem_cons_self
  exact (closedControl [labels.finish]).step_eachElement trivial hkey hvalue hfinish

/-- A round of a loop puts both labels of the loop, and what is inside may leave it. -/
theorem puts_round {labels : LoopLabels} (hwalk : Sees [labels.finish] walk)
    (n : Node) {start : Lower σ Unit} {sets : List NodeId} {each : LoopLabels → Lower σ Unit}
    {conds : List NodeId} {block : NodeId}
    (hstart : (closed [labels.finish]).step (Same fun _ => True) start start)
    (heach : (closed [labels.finish]).step (Same fun _ => True) (each labels) (each labels)) :
    Puts [labels.top, labels.finish] [] (round t walk n start sets each conds block labels) := by
  have hfirst : [labels.finish] ⊆ [labels.top, labels.finish] ++ [] := by simp
  have hthen : [labels.finish] ⊆ [labels.finish] ++ [labels.top] := by simp
  have hinside : Sees ([labels.finish] ++ [labels.top]) walk := hwalk.mono hthen
  apply puts_bind (closed_mono hstart hfirst)
  intro _ _ _
  apply puts_bind (Pairing.step_all fun c _ => hwalk.mono hfirst c)
  intro _ _ _
  apply puts_label_bind
  apply puts_bind (closed_mono heach hthen)
  intro _ _ _
  apply puts_bind (closed_guards hinside n.span false List.mem_cons_self conds)
  intro _ _ _
  apply puts_bind (hinside block)
  intro _ _ _
  apply puts_bind (closed_jump n.span (List.mem_cons_of_mem _ List.mem_cons_self))
  intro _ _ _
  exact puts_label _ _

variable [NameSupply σ]

/-- A loop is a block that holds all that its jumps lead to. -/
theorem emits_nestedLoop (n : Node) {inside : LoopLabels → Lower σ Unit} {seen : List Ident}
    (hinside : ∀ labels : LoopLabels, Puts [labels.top, labels.finish] [] (inside labels)) :
    Emits (Nested.loop n inside) fun made _ => Instr.Closed seen made := by
  apply emits_fresh.bind
  rintro top _ rfl
  apply emits_fresh.bind
  rintro finish _ rfl
  apply (emits_inBlock (hinside ⟨top, finish⟩).closed).bind
  rintro is _ ⟨rfl, his⟩
  apply emits_push
  have hbody : Instr.Closed seen is := his.mono (List.nil_subset _)
  exact Instr.closed_singleton hbody

end Loops

/-! ## Whole trees -/

section Trees

variable [NameSupply σ] {t : Tree}

omit [NameSupply σ] in
theorem closed_of_emits {seen : List Ident} {m : Lower σ Unit}
    (h : Emits m fun made _ => Instr.Closed seen made) :
    (closed seen).step (Same fun _ => True) m m :=
  h.weaken fun _ _ hmade => ⟨hmade, _, rfl, trivial⟩

omit [NameSupply σ] in
/-- The body of a function is closed by itself if its walk starts outside of all loops. -/
theorem closed_body {walk : Walk σ} (hwalk : Sees [] walk) (seen : List Ident) (block : NodeId) :
    (closed seen).step (fun is _ => Instr.Closed [] is) (body t walk block) (body t walk block) :=
  closed_mono ((closedControl []).step_body ((closed_covers [] t).fits block)
    ((closed_covers [] t).granted _) fun _ c _ => hwalk c) (List.nil_subset _)

/-- A rule with scopes sees the end of the innermost loop, if the rules below see theirs. -/
theorem sees_nestedRule {nested : Nested.Walk σ}
    (hnested : ∀ scope : Option Ident, Sees scope.toList (nested scope)) (scope : Option Ident) :
    Sees scope.toList (Nested.rule t nested scope) := by
  intro id
  have hcovers := closed_covers (σ := σ) scope.toList t
  unfold Pairing.Visit
  cases hn : t.node? id with
  | none =>
    apply Pairing.bind_same _ (Pairing.step_nodeAt (hcovers.fits id))
    intro n hsome
    rw [hn] at hsome
    cases hsome
  | some n =>
    rcases n with ⟨kind, span, parent, info⟩
    cases kind with
    | block nodes =>
      rw [Nested.rule_eq hn rfl, rule, nodeAt_eq hn, pure_bind]
      apply Pairing.step_statement
      apply (closedControl _).step_block trivial
      exact (closedControl _).step_body (hcovers.fits id) (hcovers.granted _)
        fun _ c _ => hnested scope c
    | ifChain conds block elseIfs elseBlock =>
      rw [Nested.rule_eq hn rfl, rule, nodeAt_eq hn, pure_bind]
      apply Pairing.step_statement
      exact closed_of_emits (emits_ifChain (hnested scope) id _ elseIfs elseBlock)
    | lambda body =>
      rw [Nested.rule, nodeAt_eq hn, pure_bind]
      apply Pairing.step_expression
      exact Pairing.step_lambda closed_takesBodies trivial (hcovers.granted _)
        (closed_body (hnested none) _ body)
    | func isPub name function =>
      rw [Nested.rule, nodeAt_eq hn, pure_bind]
      apply Pairing.step_statement
      apply Pairing.step_func isPub trivial (hcovers.granted _) (hcovers.granted _)
        (hcovers.fits function) (hcovers.granted _)
      intro f body _ _
      exact Pairing.step_lambda closed_takesBodies trivial (hcovers.granted _)
        (closed_body (hnested none) _ body)
    | forIf sets conds block =>
      rw [Nested.rule, nodeAt_eq hn, pure_bind]
      apply Pairing.step_statement
      apply closed_of_emits
      apply emits_nestedLoop
      intro labels
      exact puts_round (hnested (some labels.finish)) _ (Pairing.pure_same _ trivial)
        (Pairing.pure_same _ trivial)
    | forIn key value expr block =>
      rw [Nested.rule, nodeAt_eq hn, pure_bind]
      apply Pairing.step_statement
      apply Pairing.bind_same _ (Pairing.step_loopTarget? (fun c _ => hcovers.fits c)
        fun _ _ => hcovers.granted _)
      intro keyTarget hkey
      apply Pairing.bind_same _ (Pairing.step_loopTarget? (fun c _ => hcovers.fits c)
        fun _ _ => hcovers.granted _)
      intro valueTarget hvalue
      apply closed_of_emits
      apply emits_nestedLoop
      intro labels
      apply puts_round (hnested (some labels.finish))
      · have hinner := closed_covers (σ := σ) [labels.finish] t
        exact Pairing.step_startElements trivial
          ((hnested (some labels.finish) expr).value hinner.lenient (hinner.fits expr))
      · exact closed_eachElement _ hkey hvalue labels
    | breakLoop =>
      rw [Nested.rule, nodeAt_eq hn, pure_bind]
      apply Pairing.step_statement
      cases scope with
      | none => exact Pairing.step_throw _ trivial
      | some finish => exact closed_jump span List.mem_cons_self
    | _ =>
      rw [Nested.rule_eq hn rfl]
      exact Pairing.visit_rule hn rfl ⟨fun c _ => hcovers.fits c, fun _ c _ _ =>
        (hnested scope c).value hcovers.lenient (hcovers.fits c)⟩ fun c _ => hnested scope c

theorem sees_nestedWithin (steps : Nat) (scope : Option Ident) :
    Sees (σ := σ) scope.toList (Nested.within t steps scope) := by
  induction steps generalizing scope with
  | zero => exact fun id => emits_throw _
  | succ steps ih => exact sees_nestedRule ih scope

/-- Whatever is lowered with scopes from a file is closed by itself. -/
theorem emits_nestedRoot (id : NodeId) :
    Emits (Nested.root t id : Lower σ Unit) fun made _ => Instr.Closed [] made := by
  have hroot : (closed (σ := σ) []).step (Same fun _ => True) (Nested.root t id)
      (Nested.root t id) := by
    have hcovers := closed_covers (σ := σ) [] t
    apply Pairing.bind_same _ (Pairing.step_nodeAt (hcovers.fits id))
    intro n _
    exact Pairing.step_file (hcovers.granted _) fun c _ => sees_nestedWithin _ none c
  exact hroot.weaken fun _ _ hmade => hmade.1

/-- Jumps are scoped. In a tree that grew node by node, let children come before the nodes that
list them, let only shared expressions be listed by several nodes, and let a file be lowered before
any loop around it. Then every jump in its code leads to a label in its own block or in a block
around it, inside the same function, and such a label stands nowhere else. The code is what lowering
with scopes makes: there a break jumps to the end of the innermost loop in its function, from inside
the block of that loop. -/
theorem jumps_scoped_of_lowered (ht : t.Grown)
    (hordered : ∀ parent child : Nat, t.IsChild parent child → child < parent)
    (hone : ∀ parent other child, t.IsChild parent child → t.IsChild other child →
      ¬ t.Is NodeKind.isShared child → parent = other)
    {id : NodeId} {s s₁ : LowerState σ}
    (hnew : ∀ l, t.enclosingLoop id = .ok (some l) → s.loopEnds.lookup l = none)
    (h : root t id s = .ok () s₁) :
    (∃ made, s₁.out.toList = s.out.toList ++ made ∧
      Instr.allStayIn (Instr.ownLabels made) made = true ∧
      (NameSupply.NeverRepeats s.names → (Instr.labelNames made).Nodup)) ∧
    Nested.root t id s.forgetLoops = .ok () s₁.forgetLoops := by
  have hnested := nested_of_root (ht.forest hordered hone) hnew h
  obtain ⟨made, hout, hmade⟩ := emits_nestedRoot id _ _ _ hnested
  have hclosed : Instr.allStayIn (Instr.ownLabels made ++ []) made = true := hmade
  rw [List.append_nil] at hclosed
  exact ⟨⟨made, hout, hclosed, fun hnames =>
    (neutral_root t id).nodup_labelNames hnames h hout⟩, hnested⟩

end Trees

theorem loopTwice_grown : Tree.loopTwice.Grown := by
  have hliteral := (Tree.Grown.empty.push .literal .none).infer 0
    fun _ => ⟨none, some (.bool true), none, none, none⟩
  have hbody := ((hliteral.push .breakLoop .none).push (.block [1]) .none).push
    (.ifChain [0] 2 [] none) .none
  have hloop := (hbody.push (.block [3]) .none).push (.forIf none [] 4) .none
  exact hloop.push (.file "f" [5, 5]) .none

/-- The loop stands twice in its file and is noted twice. Each break leads to the end of the block
that it stands in. -/
theorem jumps_scoped_of_lowered_loop :
    let made := [Instr.loopOnce "L0" "L1" "L2" "L3", .loopOnce "L4" "L5" "L6" "L7"]
    ∃ s₁, root Tree.loopTwice 6 (.ofNames SequentialNames.start) = .ok () s₁ ∧
      s₁.out.toList = made ∧ Instr.allStayIn (Instr.ownLabels made) made = true ∧
      (Instr.labelNames made).Nodup ∧
      Nested.root Tree.loopTwice 6 (.ofNames SequentialNames.start) = .ok () s₁.forgetLoops := by
  intro made
  have hroot : ∃ s₁, root Tree.loopTwice 6 (.ofNames SequentialNames.start) = .ok () s₁ ∧
      s₁.out.toList = made := ⟨_, rfl, rfl⟩
  obtain ⟨s₁, hs₁, hout⟩ := hroot
  have hlinks : Tree.loopTwice.LinksBack := by decide
  obtain ⟨⟨made', hout', hstay, hnodup⟩, hnested⟩ :=
    jumps_scoped_of_lowered loopTwice_grown (fun _ _ => hlinks.ordered)
      (fun _ _ _ hchild hchild' _ => hlinks.parent_unique hchild hchild') (fun _ _ => rfl) hs₁
  obtain rfl : made = made' := hout.symm.trans hout'
  exact ⟨s₁, hs₁, hout, hstay, hnodup (SequentialNames.neverRepeats _), hnested⟩

/-- A loop with a file in it, and in that file a break. -/
def fileInLoop : Tree :=
  ⟨#[⟨.breakLoop, .none, some 1, .empty⟩, ⟨.file "inner" [0], .none, some 2, .empty⟩,
    ⟨.block [1], .none, some 3, .empty⟩, ⟨.forIf none [] 2, .none, some 4, .empty⟩,
    ⟨.file "outer" [3], .none, none, .empty⟩]⟩

theorem fileInLoop_grown : fileInLoop.Grown := by
  have hfile := (Tree.Grown.empty.push .breakLoop .none).push (.file "inner" [0]) .none
  have hloop := (hfile.push (.block [1]) .none).push (.forIf none [] 2) .none
  exact hloop.push (.file "outer" [3]) .none

/-- The loop must not have been lowered before the file in it. Once it has, the break still finds
its end, and the file is lowered to a jump from outside into the block of the loop. -/
theorem break_enters_lowered_loop :
    fileInLoop.Grown ∧
    (∀ parent child : Nat, fileInLoop.IsChild parent child → child < parent) ∧
    (∀ parent other child, fileInLoop.IsChild parent child → fileInLoop.IsChild other child →
      parent = other) ∧
    ∃ s₁ s₂, root fileInLoop 4 (.ofNames SequentialNames.start) = .ok () s₁ ∧
      root fileInLoop 1 s₁ = .ok () s₂ ∧
      s₂.out.toList = s₁.out.toList ++ [.jump (.name "L1") .none] ∧
      Instr.ownLabels s₂.out.toList = [] ∧
      Instr.allStayIn (Instr.ownLabels s₂.out.toList) s₂.out.toList = false := by
  have hlinks : fileInLoop.LinksBack := by decide
  exact ⟨fileInLoop_grown, fun _ _ => hlinks.ordered, fun _ _ _ => hlinks.parent_unique,
    _, _, rfl, rfl, rfl, rfl, rfl⟩

end Lower

end BytecodeCompiler
