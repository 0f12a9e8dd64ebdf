import BytecodeCompiler.Lower.State
import BytecodeCompiler.Proofs.Code.Written
import BytecodeCompiler.Proofs.Emission.TwoPass
import BytecodeCompiler.Proofs.Names
import Mathlib.Data.List.Count

-- A ledger of labels. A rule of lowering draws labels, jumps to them and puts them into the code,
-- not always in this order and not always in one step. The labels that were drawn and still have to
-- be put somewhere are in hand. A step starts with some labels in hand and ends with some, and the
-- ledger says that none is lost, none is used twice, and every jump leads to a label that is put
-- somewhere or still in hand.

namespace BytecodeCompiler

open Piece (namesAll targetsAll)

/-! ## Labels and jumps of instructions -/

namespace Instr

/-- The labels that stand in the instructions, at any depth. -/
def labelNames (is : List Instr) : List Ident := namesAll (layoutAll is)

/-- The labels that jumps in the instructions name, at any depth. -/
def jumpNames (is : List Instr) : List Ident := targetsAll (layoutAll is)

theorem labelNames_append (is js : List Instr) :
    labelNames (is ++ js) = labelNames is ++ labelNames js := by
  simp only [labelNames, layoutAll_append, Piece.namesAll_append]

theorem jumpNames_append (is js : List Instr) :
    jumpNames (is ++ js) = jumpNames is ++ jumpNames js := by
  simp only [jumpNames, layoutAll_append, Piece.targetsAll_append]

/-- Whether there is neither a label nor a jump in an instruction. -/
def isInert (i : Instr) : Bool := i.layout.all Piece.isData

@[simp]
theorem isInert_value (v : Value) (span : Span) : (Instr.value v span).isInert = true := rfl

theorem labelNames_of_isInert {i : Instr} (h : i.isInert = true) : labelNames [i] = [] := by
  simp only [labelNames, layoutAll, List.append_nil, Piece.namesAll_of_data h]

theorem jumpNames_of_isInert {i : Instr} (h : i.isInert = true) : jumpNames [i] = [] := by
  simp only [jumpNames, layoutAll, List.append_nil, Piece.targetsAll_of_data h]

/-- The operands of an instruction. -/
def operands : Instr → List Instr
  | .wrapped _ a _ | .set _ _ a _ | .unary _ a _ | .length a _ | .attrGet _ _ a _ | .cast _ a _
  | .ret a _ => [a]
  | .mov a b _ | .binary _ a b _ | .collection _ a b _ | .indexGet a _ b _ | .attrSet _ _ a b _
  | .call a b _ => [a, b]
  | .indexSet a b c _ | .ternary a b c _ => [a, b, c]
  | .iterable _ members _ => members
  | _ => []

/-- Whether an instruction is no jump, no label and no block. -/
def isStraight : Instr → Bool
  | .compareJump .. | .jump .. | .label .. | .lambda .. | .block .. => false
  | _ => true

theorem data_layoutReversed {is : List Instr} (h : ∀ i ∈ is, i.isInert = true) :
    (layoutReversed is).all Piece.isData = true := by
  induction is with
  | nil => rfl
  | cons i is ih =>
    obtain ⟨hfirst, hothers⟩ := List.forall_mem_cons.mp h
    rw [isInert] at hfirst
    rw [layoutReversed, List.all_append, ih hothers, hfirst, Bool.and_self]

/-- A straight instruction is inert if its operands are. -/
theorem isInert_of_operands {i : Instr} (h : i.isStraight = true)
    (hoperands : ∀ o ∈ i.operands, o.isInert = true) : i.isInert = true := by
  cases i with
  | compareJump | jump | label | lambda | block => cases h
  | iterable t members span =>
    have hmembers : (layoutReversed members).all Piece.isData = true :=
      data_layoutReversed hoperands
    simp [isInert, layout, Piece.isData, hmembers]
  | collection op a b span =>
    simp only [operands, isInert, List.mem_cons, List.not_mem_nil, or_false, forall_eq_or_imp,
      forall_eq] at hoperands
    cases op <;> simp [isInert, layout, Piece.opcode, Piece.isData, hoperands]
  | _ =>
    simp only [operands, isInert, List.mem_cons, List.not_mem_nil, or_false, forall_eq_or_imp,
      forall_eq] at hoperands
    simp [isInert, layout, Piece.opcode, Piece.bool, Piece.declaration, Piece.isData, hoperands]

theorem isInert_wrapped {inner : Instr} (ty : Ty) (span : Span) (h : inner.isInert = true) :
    (wrapped ty inner span).isInert = true :=
  isInert_of_operands rfl (List.forall_mem_singleton.mpr h)

theorem isInert_iterable {members : List Instr} (ty : Ty) (span : Span)
    (h : ∀ m ∈ members, m.isInert = true) : (iterable ty members span).isInert = true :=
  isInert_of_operands rfl h

theorem names_compareJump {a b : Instr} (ha : a.isInert = true) (hb : b.isInert = true) (l : Ident)
    (span : Span) : labelNames [.compareJump a b l span] = [] ∧
    jumpNames [.compareJump a b l span] = [l] := by
  rw [isInert] at ha hb
  simp [labelNames, jumpNames, layoutAll, layout, Piece.opcode, Piece.namesAll_append,
    Piece.targetsAll_append, Piece.namesAll_of_data ha, Piece.namesAll_of_data hb,
    Piece.targetsAll_of_data ha, Piece.targetsAll_of_data hb, namesAll, targetsAll, Piece.names,
    Piece.targets]

theorem names_block (is : List Instr) (span : Span) :
    labelNames [.block is span] = labelNames is ∧ jumpNames [.block is span] = jumpNames is := by
  simp [labelNames, jumpNames, layoutAll, layout, namesAll, targetsAll, Piece.names, Piece.targets]

theorem names_lambda (s : Signature) (is : List Instr) (span : Span) :
    labelNames [.lambda s is span] = labelNames is ∧
    jumpNames [.lambda s is span] = jumpNames is := by
  simp [labelNames, jumpNames, layoutAll, layout, Piece.opcode, namesAll, targetsAll, Piece.names,
    Piece.targets]

end Instr

namespace LowerState

variable {σ : Type}

/-- The labels that breaks can lead to. -/
def ends (s : LowerState σ) : List Ident := s.loopEnds.map Prod.snd

end LowerState

/-! ## The ledger -/

variable {σ : Type} [NameSupply σ]

/-- A label that a jump may name: it was just put somewhere, is in hand, was put somewhere earlier,
or ends a loop that was met earlier. -/
def Backed (known : List Ident) (s : LowerState σ) (made : List Instr) (after : List Ident)
    (l : Ident) : Prop :=
  l ∈ Instr.labelNames made ∨ l ∈ after ∨ l ∈ known ∨ l ∈ s.ends

/-- Between two states, instructions were made, and the labels in hand went from `before` to
`after`. The `known` labels were put somewhere earlier. -/
structure Ledger (known before : List Ident) (s : LowerState σ) (made : List Instr)
    (after : List Ident) (s' : LowerState σ) : Prop where
  /-- A label that is used or in hand was in hand before or was drawn. -/
  conserved : ∃ drawn, NameSupply.Draws s.names drawn s'.names ∧
    ∀ l, (Instr.labelNames made).count l + after.count l ≤ drawn.count l + before.count l
  /-- No label in hand is lost. -/
  kept : ∀ l ∈ before, l ∈ Instr.labelNames made ∨ l ∈ after
  jumps : ∀ l ∈ Instr.jumpNames made, Backed known s made after l
  ends : ∀ l ∈ s'.ends, Backed known s made after l

namespace Ledger

variable {known before middle after : List Ident} {s s' s'' : LowerState σ}
  {made made' : List Instr}

/-- What a first step left in hand is used by the second step or still in hand. -/
theorem backed_left {l : Ident} (h : Backed known s made middle l)
    (h' : Ledger known middle s' made' after s'') : Backed known s (made ++ made') after l := by
  rw [Backed, Instr.labelNames_append, List.mem_append]
  rcases h with hmade | hhand | hother
  · exact Or.inl (Or.inl hmade)
  · rcases h'.kept l hhand with hmade' | hafter
    · exact Or.inl (Or.inr hmade')
    · exact Or.inr (Or.inl hafter)
  · exact Or.inr (Or.inr hother)

theorem backed_right {l : Ident} (h : Ledger known before s made middle s')
    (h' : Ledger known middle s' made' after s'') (hl : Backed known s' made' after l) :
    Backed known s (made ++ made') after l := by
  rcases hl with hmade' | hafter | hknown | hends
  · rw [Backed, Instr.labelNames_append, List.mem_append]
    exact Or.inl (Or.inr hmade')
  · exact Or.inr (Or.inl hafter)
  · exact Or.inr (Or.inr (Or.inl hknown))
  · exact backed_left (h.ends l hends) h'

theorem refl (known before : List Ident) (s : LowerState σ) :
    Ledger known before s [] before s where
  conserved := ⟨[], .nothing s.names, fun _ => Nat.le_refl _⟩
  kept := fun _ hl => Or.inr hl
  jumps := fun _ hl => nomatch hl
  ends := fun _ hl => Or.inr (Or.inr (Or.inr hl))

theorem trans (h : Ledger known before s made middle s')
    (h' : Ledger known middle s' made' after s'') :
    Ledger known before s (made ++ made') after s'' := by
  obtain ⟨drawn, hdraws, hcount⟩ := h.conserved
  obtain ⟨drawn', hdraws', hcount'⟩ := h'.conserved
  constructor
  · refine ⟨drawn ++ drawn', hdraws.append hdraws', fun l => ?_⟩
    have hl := hcount l
    have hl' := hcount' l
    rw [Instr.labelNames_append, List.count_append, List.count_append]
    omega
  · intro l hl
    rw [Instr.labelNames_append, List.mem_append]
    rcases h.kept l hl with hmade | hhand
    · exact Or.inl (Or.inl hmade)
    · rcases h'.kept l hhand with hmade' | hafter
      · exact Or.inl (Or.inr hmade')
      · exact Or.inr hafter
  · intro l hl
    rw [Instr.jumpNames_append, List.mem_append] at hl
    rcases hl with hfirst | hlast
    · exact backed_left (h.jumps l hfirst) h'
    · exact backed_right h h' (h'.jumps l hlast)
  · exact fun l hl => backed_right h h' (h'.ends l hl)

/-- The order of the labels in hand does not matter. -/
theorem perm {before' after' : List Ident} (h : Ledger known before s made after s')
    (hbefore : before'.Perm before) (hafter : after.Perm after') :
    Ledger known before' s made after' s' := by
  obtain ⟨drawn, hdraws, hcount⟩ := h.conserved
  have hbacked : ∀ {l}, Backed known s made after l → Backed known s made after' l := by
    intro l hl
    rwa [Backed, ← hafter.mem_iff]
  refine ⟨⟨drawn, hdraws, fun l => ?_⟩, fun l hl => ?_, fun l hl => hbacked (h.jumps l hl),
    fun l hl => hbacked (h.ends l hl)⟩
  · rw [← hafter.count_eq, hbefore.count_eq]
    exact hcount l
  · rw [← hafter.mem_iff]
    exact h.kept l (hbefore.mem_iff.mp hl)

/-- A label that was put somewhere meanwhile need not be known from before. -/
theorem forget {l : Ident} (h : Ledger (l :: known) before s made after s')
    (hl : l ∈ Instr.labelNames made) : Ledger known before s made after s' := by
  have hbacked : ∀ {k}, Backed (l :: known) s made after k → Backed known s made after k := by
    intro k hk
    rcases hk with hmade | hhand | hknown | hends
    · exact Or.inl hmade
    · exact Or.inr (Or.inl hhand)
    · rcases List.mem_cons.mp hknown with rfl | hknown
      · exact Or.inl hl
      · exact Or.inr (Or.inr (Or.inl hknown))
    · exact Or.inr (Or.inr (Or.inr hends))
  exact ⟨h.conserved, h.kept, fun k hk => hbacked (h.jumps k hk), fun k hk => hbacked (h.ends k hk)⟩

/-- Only the labels and the jumps of what was made matter, and not where it went. -/
theorem wrapped (h : Ledger known before s made after s')
    (hlabels : Instr.labelNames made' = Instr.labelNames made)
    (hjumps : Instr.jumpNames made' = Instr.jumpNames made) (processed : List NodeId)
    (out : Array Instr) :
    Ledger known before s made' after ⟨s'.names, s'.loopEnds, processed, out⟩ := by
  have hbacked : ∀ {l}, Backed known s made after l → Backed known s made' after l := by
    intro l hl
    rwa [Backed, hlabels]
  refine ⟨?_, ?_, fun l hl => hbacked (h.jumps l (hjumps ▸ hl)), fun l hl => hbacked (h.ends l hl)⟩
  · rw [hlabels]
    exact h.conserved
  · rw [hlabels]
    exact h.kept

/-- An instruction without labels may jump to labels in hand, to known ones, and to the ends of
loops that were met. -/
theorem instruction {hand : List Ident} {i : Instr} (hlabels : Instr.labelNames [i] = [])
    (hjumps : ∀ l ∈ Instr.jumpNames [i], l ∈ hand ∨ l ∈ known ∨ l ∈ s.ends) (out : Array Instr) :
    Ledger known hand s [i] hand ⟨s.names, s.loopEnds, s.processed, out⟩ where
  conserved := ⟨[], .nothing s.names, fun l => Nat.le_of_eq (by rw [hlabels])⟩
  kept := fun _ hl => Or.inr hl
  jumps := fun l hl => Or.inr (hjumps l hl)
  ends := fun _ hl => Or.inr (Or.inr (Or.inr hl))

/-- A label goes from the hand into the code. -/
theorem label (known hand : List Ident) (l : Ident) (span : Span) (s : LowerState σ)
    (out : Array Instr) :
    Ledger known (l :: hand) s [.label l span] hand ⟨s.names, s.loopEnds, s.processed, out⟩ where
  conserved := ⟨[], .nothing s.names, fun k => by
    rw [← List.count_append, List.count_nil, Nat.zero_add]
    exact Nat.le_refl _⟩
  kept := fun k hk => by
    rcases List.mem_cons.mp hk with rfl | hhand
    · exact Or.inl List.mem_cons_self
    · exact Or.inr hhand
  jumps := fun _ hk => nomatch hk
  ends := fun _ hk => Or.inr (Or.inr (Or.inr hk))

end Ledger

/-! ## Steps that keep the ledger -/

namespace Lower

variable {α β : Type}

/-- The step keeps the ledger: it starts with labels in hand and leaves others, depending on what it
gives. What it gives is good. -/
def Handles (known before : List Ident) (m : Lower σ α) (after : α → List Ident)
    (good : α → Prop) : Prop :=
  ∀ s a s', m s = .ok a s' → good a ∧ ∃ made, s'.out.toList = s.out.toList ++ made ∧
    Ledger known before s made (after a) s'

/-- The step keeps the ledger and leaves the labels in hand alone, whichever they are. -/
def Neutral (m : Lower σ α) (good : α → Prop) : Prop :=
  ∀ known hand, Handles known hand m (fun _ => hand) good

section Sequences

variable {known before : List Ident} {m : Lower σ α} {f : α → Lower σ β} {middle : α → List Ident}
  {after : β → List Ident} {good : α → Prop} {good' : β → Prop}

theorem Handles.bind (hm : Handles known before m middle good)
    (hf : ∀ a, good a → Handles known (middle a) (f a) after good') :
    Handles known before (m >>= f) after good' := by
  intro s b s'' h
  obtain ⟨a, s', hfirst, hlast⟩ := bind_eq_ok h
  obtain ⟨hgood, made, hout, hledger⟩ := hm s a s' hfirst
  obtain ⟨hgood', made', hout', hledger'⟩ := hf a hgood s' b s'' hlast
  exact ⟨hgood', made ++ made', by rw [hout', hout, List.append_assoc], hledger.trans hledger'⟩

theorem Neutral.bind (hm : Neutral m good) (hf : ∀ a, good a → Neutral (f a) good') :
    Neutral (m >>= f) good' :=
  fun known hand => (hm known hand).bind fun a ha => hf a ha known hand

theorem Neutral.weaken {other : α → Prop} (hm : Neutral m good) (h : ∀ a, good a → other a) :
    Neutral m other := by
  intro known hand s a s' hrun
  obtain ⟨hgood, hmade⟩ := hm known hand s a s' hrun
  exact ⟨h a hgood, hmade⟩

theorem handles_pure (after : α → List Ident) {a : α} (ha : good a) :
    Handles known (after a) (pure a : Lower σ α) after good := by
  intro s b s' h
  cases h
  exact ⟨ha, [], (List.append_nil _).symm, Ledger.refl known (after a) s⟩

theorem handles_throw (fault : Fault) :
    Handles known before (throw fault : Lower σ α) middle good := by
  intro s a s' h
  cases h

theorem neutral_pure {a : α} (ha : good a) : Neutral (pure a : Lower σ α) good :=
  fun _ hand => handles_pure (fun _ => hand) ha

theorem neutral_throw (fault : Fault) : Neutral (throw fault : Lower σ α) good :=
  fun _ _ => handles_throw fault

/-- If names never repeat, each label stands once in what the step makes. -/
theorem Neutral.nodup_labelNames (hm : Neutral m good) {s s' : LowerState σ} {a : α}
    {made : List Instr} (hnames : NameSupply.NeverRepeats s.names) (h : m s = .ok a s')
    (hout : s'.out.toList = s.out.toList ++ made) : (Instr.labelNames made).Nodup := by
  obtain ⟨-, made', hout', ⟨drawn, hdraws, hcount⟩, -⟩ := hm [] [] s a s' h
  obtain rfl : made = made' := List.append_cancel_left (hout.symm.trans hout')
  rw [List.nodup_iff_count_le_one]
  intro l
  have hdrawn := List.nodup_iff_count_le_one.mp (hnames drawn _ hdraws) l
  have hused := hcount l
  simp only [List.count_nil] at hused
  omega

theorem Handles.perm {before' : List Ident} {middle' : α → List Ident}
    (hm : Handles known before m middle good) (hbefore : before'.Perm before)
    (hmiddle : ∀ a, good a → (middle a).Perm (middle' a)) :
    Handles known before' m middle' good := by
  intro s a s' h
  obtain ⟨hgood, made, hout, hledger⟩ := hm s a s' h
  exact ⟨hgood, made, hout, hledger.perm hbefore (hmiddle a hgood)⟩

end Sequences

/-! ## Output -/

section Output

variable {known hand : List Ident} {i : Instr}

theorem handles_push (hlabels : Instr.labelNames [i] = [])
    (hjumps : ∀ l ∈ Instr.jumpNames [i], l ∈ hand ∨ l ∈ known) :
    Handles known hand (push i : Lower σ Unit) (fun _ => hand) fun _ => True := by
  intro s a s' h
  cases h
  refine ⟨trivial, [i], Array.toList_push, Ledger.instruction hlabels (fun l hl => ?_) _⟩
  rcases hjumps l hl with hhand | hknown
  · exact Or.inl hhand
  · exact Or.inr (Or.inl hknown)

theorem neutral_push (h : i.isStraight = true) (hoperands : ∀ o ∈ i.operands, o.isInert = true) :
    Neutral (push i : Lower σ Unit) fun _ => True := by
  have hinert := Instr.isInert_of_operands h hoperands
  intro known hand
  refine handles_push (Instr.labelNames_of_isInert hinert) ?_
  rw [Instr.jumpNames_of_isInert hinert]
  exact fun l hl => nomatch hl

theorem handles_push_label (l : Ident) (span : Span) :
    Handles known (l :: hand) (push (.label l span) : Lower σ Unit) (fun _ => hand)
      fun _ => True := by
  intro s a s' h
  cases h
  exact ⟨trivial, _, Array.toList_push, Ledger.label known hand l span s _⟩

/-- Once its label stands in the code, the rest of a row may jump back to it. -/
theorem Handles.after_label {l : Ident} {span : Span} {f : Lower σ α} {after : α → List Ident}
    {good : α → Prop} (hf : Handles (l :: known) hand f after good) :
    Handles known (l :: hand) (do push (.label l span); f) after good := by
  intro s a s'' h
  obtain ⟨_, s', hlabel, hrest⟩ := bind_eq_ok h
  cases hlabel
  obtain ⟨hgood, made, hout, hledger⟩ := hf _ a s'' hrest
  refine ⟨hgood, [.label l span] ++ made, ?_, ?_⟩
  · rw [hout, Array.toList_push, List.append_assoc]
  · have hwhole := (Ledger.label (l :: known) hand l span s _).trans hledger
    exact hwhole.forget (Instr.labelNames_append .. ▸ List.mem_append_left _ List.mem_cons_self)

end Output

/-! ## New blocks -/

/-- The step makes instructions for a block of their own and keeps the ledger. -/
def Builds (known before : List Ident) (m : Lower σ (List Instr)) (after : List Ident) : Prop :=
  ∀ s made s', m s = .ok made s' → s'.out = s.out ∧ Ledger known before s made after s'

section Blocks

variable {known before after : List Ident}

theorem builds_inBlock {inside : Lower σ Unit}
    (h : Handles known before inside (fun _ => after) fun _ => True) :
    Builds known before (inBlock inside) after := by
  intro s made s' hrun
  simp only [inBlock] at hrun
  split at hrun
  · rename_i a t hinside
    cases hrun
    obtain ⟨-, made, hout, hledger⟩ := h _ a t hinside
    simp only [List.nil_append] at hout
    rw [hout]
    exact ⟨rfl, hledger.conserved, hledger.kept, hledger.jumps, hledger.ends⟩
  · cases hrun

/-- A block that was made goes into an instruction around it. -/
theorem Builds.push {m : Lower σ (List Instr)} {wrap : List Instr → Instr}
    (hm : Builds known before m after)
    (hwrap : ∀ is, Instr.labelNames [wrap is] = Instr.labelNames is ∧
      Instr.jumpNames [wrap is] = Instr.jumpNames is) :
    Handles known before (do let is ← m; Lower.push (wrap is)) (fun _ => after) fun _ => True := by
  intro s a s'' h
  obtain ⟨is, s', hbody, hlast⟩ := bind_eq_ok h
  obtain ⟨hout, hledger⟩ := hm s is s' hbody
  cases hlast
  obtain ⟨hlabels, hjumps⟩ := hwrap is
  refine ⟨trivial, [wrap is], ?_, hledger.wrapped hlabels hjumps _ _⟩
  rw [← hout]
  exact Array.toList_push

/-- The same with a rest of the rule behind it. -/
theorem Builds.push_bind {m : Lower σ (List Instr)} {wrap : List Instr → Instr} {f : Lower σ α}
    {after' : α → List Ident} {good : α → Prop} (hm : Builds known before m after)
    (hwrap : ∀ is, Instr.labelNames [wrap is] = Instr.labelNames is ∧
      Instr.jumpNames [wrap is] = Instr.jumpNames is)
    (hf : Handles known after f after' good) :
    Handles known before (do let is ← m; Lower.push (wrap is); f) after' good := by
  rw [← bind_assoc]
  exact (hm.push hwrap).bind fun _ _ => hf

end Blocks

end Lower

end BytecodeCompiler
