import BytecodeCompiler.Proofs.Tree.Calm

-- How lowering treats the scratch registers. A loop over an iterable keeps the iterable and the
-- index in two fixed registers, and a shared expression is kept in one of them. What a node is
-- lowered to leaves them alone if the node is calm. It writes them if a loop over an iterable or
-- the first use of a shared expression is lowered with the node.

namespace BytecodeCompiler

/-! ## Moves into registers -/

namespace Instr

/-- Whether the operand refers to one of the registers. -/
def refersTo (rs : List Register) (i : Instr) : Bool := i.register?.any (rs.contains ·)

mutual

/-- The moves into the registers, at any depth of blocks but not inside functions. -/
def movesInto (rs : List Register) : Instr → List Instr
  | .mov target v span => if target.refersTo rs then [.mov target v span] else []
  | .block body _ => movesIntoAll rs body
  | _ => []

def movesIntoAll (rs : List Register) : List Instr → List Instr
  | [] => []
  | i :: is => movesInto rs i ++ movesIntoAll rs is

end

theorem refersTo_register {rs : List Register} {r : Register} (hr : r ∈ rs) (span : Span) :
    (Instr.register r span).refersTo rs = true := by
  have hsame : (Instr.register r span).refersTo rs = rs.contains r := by
    cases r <;> rfl
  rw [hsame, List.contains_iff_mem]
  exact hr

theorem refersTo_of_not_isScratch {rs : List Register} (hrs : ∀ r ∈ rs, r = .ra ∨ r = .ri)
    {v : Value} (h : v.isScratch = false) (span : Span) :
    (Instr.value v span).refersTo rs = false := by
  rw [Value.isScratch, Bool.or_eq_false_iff] at h
  unfold refersTo register? value?
  cases hr : Register.ofValue? v with
  | none => simp [hr]
  | some r =>
    rw [hr] at h
    have habsent : r ∉ rs := by
      intro hmem
      rcases hrs r hmem with rfl | rfl
      · exact absurd h.1 (by decide)
      · exact absurd h.2 (by decide)
    simp [hr, habsent]

theorem movesIntoAll_append (rs : List Register) (is js : List Instr) :
    movesIntoAll rs (is ++ js) = movesIntoAll rs is ++ movesIntoAll rs js := by
  induction is with
  | nil => rfl
  | cons i is ih => simp [movesIntoAll, ih]

/-- Whether the instruction is neither a move nor a block. -/
def isStill : Instr → Bool
  | .mov .. | .block .. => false
  | _ => true

theorem movesInto_of_isStill {rs : List Register} {i : Instr} (h : i.isStill = true) :
    movesInto rs i = [] := by
  cases i with
  | mov | block => cases h
  | _ => rfl

end Instr

open Instr (movesInto movesIntoAll)

namespace Lower

variable {σ : Type} {α β : Type}

/-! ## Steps that settle -/

/-- How the instructions that nodes are lowered to treat the registers, and which shared expressions
are computed before and after. Calm nodes leave the registers alone. A loop over an iterable moves
into them, and so does the first use of a shared expression. What is computed without a move is
computed in a function, and nothing is computed that the nodes do not reach. -/
structure Settled (rs : List Register) (t : Tree) (done parts computed : List NodeId)
    (made : List Instr) (computed' : List NodeId) : Prop where
  calm : (∀ id ∈ parts, t.Calm done id) → movesIntoAll rs made = []
  looped : (∃ id ∈ parts, ∃ c, t.Together id c ∧ t.Is NodeKind.isForIn c) →
    movesIntoAll rs made ≠ []
  used : ∀ c ∉ computed, (∀ id ∈ parts, ¬ t.Hides id c) → t.Is NodeKind.isPending c →
    (∃ id ∈ parts, t.Together id c) → movesIntoAll rs made ≠ []
  quiet : ∀ c ∉ computed, (∀ id ∈ parts, ¬ t.Hides id c) → movesIntoAll rs made = [] →
    c ∉ computed'
  kept : ∀ c ∉ computed, (∀ id ∈ parts, ¬ t.Reaches id c) → c ∉ computed'

/-- From a state in which some shared expressions are computed, a step that succeeds forgets none of
them, and appends instructions that are good for its result and for what is computed before and
after. -/
def Proceeds (done : List NodeId) (m : Lower σ α)
    (good : List NodeId → List Instr → List NodeId → α → Prop) : Prop :=
  ∀ s a s', done ⊆ s.processed → m s = .ok a s' → done ⊆ s'.processed ∧
    ∃ made, s'.out.toList = s.out.toList ++ made ∧ good s.processed made s'.processed a

/-- The step lowers the nodes, and what it appends is settled. -/
def Settles (rs : List Register) (t : Tree) (done parts : List NodeId) (m : Lower σ α)
    (good : α → Prop) : Prop :=
  Proceeds done m fun computed made computed' a =>
    Settled rs t done parts computed made computed' ∧ good a

/-- The step appends and computes nothing, and its result is good. -/
def Silent (done : List NodeId) (m : Lower σ α) (good : α → Prop) : Prop :=
  Proceeds done m fun computed made computed' a => made = [] ∧ computed' = computed ∧ good a

section Sequences

variable {done : List NodeId} {m : Lower σ α} {f : α → Lower σ β}
  {good : List NodeId → List Instr → List NodeId → α → Prop}
  {good' : List NodeId → List Instr → List NodeId → β → Prop}

theorem Proceeds.bind (hm : Proceeds done m good)
    (hf : ∀ computed a made computed', good computed made computed' a →
      Proceeds done (f a) fun start made' computed'' b =>
        start = computed' → good' computed (made ++ made') computed'' b) :
    Proceeds done (m >>= f) good' := by
  intro s b s'' hdone h
  obtain ⟨a, s', hfirst, hlast⟩ := bind_eq_ok h
  obtain ⟨hdone', made, hout, hgood⟩ := hm s a s' hdone hfirst
  obtain ⟨hdone'', made', hout', hgood'⟩ := hf _ a made _ hgood s' b s'' hdone' hlast
  exact ⟨hdone'', made ++ made', by rw [hout', hout, List.append_assoc], hgood' rfl⟩

theorem Proceeds.weaken {other : List NodeId → List Instr → List NodeId → α → Prop}
    (hm : Proceeds done m good)
    (h : ∀ computed made computed' a, good computed made computed' a →
      other computed made computed' a) : Proceeds done m other := by
  intro s a s' hdone hrun
  obtain ⟨hdone', made, hout, hgood⟩ := hm s a s' hdone hrun
  exact ⟨hdone', made, hout, h _ made _ a hgood⟩

theorem proceeds_throw (fault : Fault) : Proceeds done (throw fault : Lower σ α) good := by
  intro s a s' _ h
  cases h

theorem proceeds_pure {a : α} (h : ∀ computed, good computed [] computed a) :
    Proceeds done (pure a : Lower σ α) good := by
  intro s a s' hdone hrun
  cases hrun
  exact ⟨hdone, [], (List.append_nil _).symm, h _⟩

theorem proceeds_push {i : Instr} {good : List NodeId → List Instr → List NodeId → Unit → Prop}
    (h : ∀ computed, good computed [i] computed ()) :
    Proceeds done (push i : Lower σ Unit) good := by
  intro s a s' hdone hrun
  cases hrun
  exact ⟨hdone, [i], Array.toList_push, h _⟩

theorem proceeds_push_bind {i : Instr} {f : Unit → Lower σ β}
    (hf : Proceeds done (f ()) fun computed made computed' b =>
      good' computed (i :: made) computed' b) : Proceeds done (push i >>= f) good' := by
  intro s b s' hdone h
  obtain ⟨_, s₁, hpushed, hrest⟩ := bind_eq_ok h
  cases hpushed
  obtain ⟨hdone', made, hout, hgood⟩ :=
    hf ⟨s.names, s.loopEnds, s.processed, s.out.push i⟩ b s' hdone hrest
  refine ⟨hdone', i :: made, ?_, hgood⟩
  rw [hout, Array.toList_push, List.append_assoc]
  rfl

/-- What is good of the instructions is good of the new block that they are lowered into. -/
theorem proceeds_inBlock {inside : Lower σ Unit}
    {inner : List NodeId → List Instr → List NodeId → Prop}
    (h : Proceeds done inside fun computed made computed' _ => inner computed made computed') :
    Proceeds done (inBlock inside) fun computed made computed' body =>
      made = [] ∧ inner computed body computed' := by
  rintro ⟨names, loopEnds, processed, out⟩ body s' hdone hrun
  simp only [inBlock] at hrun
  split at hrun
  · rename_i s'' hinside
    cases hrun
    obtain ⟨hdone', made, hout, hmade⟩ := h ⟨names, loopEnds, processed, #[]⟩ _ _ hdone hinside
    rw [show s''.out.toList = made from hout]
    exact ⟨hdone', [], (List.append_nil _).symm, rfl, hmade⟩
  · cases hrun

end Sequences

/-! ## Steps that are silent -/

section Silence

variable {done : List NodeId} {m : Lower σ α} {f : α → Lower σ β} {good : α → Prop}

theorem Silent.bind (hm : Silent done m good)
    {good' : List NodeId → List Instr → List NodeId → β → Prop}
    (hf : ∀ a, good a → Proceeds done (f a) good') : Proceeds done (m >>= f) good' := by
  refine Proceeds.bind hm fun computed a made computed' hgood => ?_
  obtain ⟨rfl, rfl, hgood⟩ := hgood
  refine (hf a hgood).weaken ?_
  rintro start made computed'' b hgood' rfl
  exact hgood'

theorem Silent.mono {other : α → Prop} (hm : Silent done m good) (h : ∀ a, good a → other a) :
    Silent done m other :=
  hm.weaken fun _ _ _ a hgood => ⟨hgood.1, hgood.2.1, h a hgood.2.2⟩

theorem silent_pure {a : α} (ha : good a) : Silent done (pure a : Lower σ α) good :=
  proceeds_pure fun _ => ⟨rfl, rfl, ha⟩

theorem silent_get : Silent done (get : Lower σ (LowerState σ)) fun _ => True := by
  intro s a s' hdone h
  cases h
  exact ⟨hdone, [], (List.append_nil _).symm, rfl, rfl, trivial⟩

theorem silent_noteLoop (id : NodeId) (finish : Ident) :
    Silent done (noteLoop id finish : Lower σ Unit) fun _ => True := by
  intro s a s' hdone h
  cases h
  exact ⟨hdone, [], (List.append_nil _).symm, rfl, rfl, trivial⟩

theorem silent_fresh [NameSupply σ] : Silent done (fresh : Lower σ Ident) fun _ => True := by
  rintro ⟨names, loopEnds, processed, out⟩ i s' hdone h
  rw [fresh] at h
  split at h
  · cases h
    exact ⟨hdone, [], (List.append_nil _).symm, rfl, rfl, trivial⟩
  · cases h

theorem silent_nodeAt (t : Tree) (id : NodeId) :
    Silent done (nodeAt t id : Lower σ Node) fun n => t.node? id = some n := by
  unfold nodeAt
  split
  · exact silent_pure ‹_›
  · exact proceeds_throw _

theorem silent_tyOf (n : Node) (what : String) :
    Silent done (tyOf n what : Lower σ Ty) fun _ => True := by
  unfold tyOf
  split
  · exact silent_pure trivial
  · exact proceeds_throw _

theorem silent_identOfName (name : String) :
    Silent done (identOfName name : Lower σ Ident) fun i => i = .name name := by
  unfold identOfName Ident.ofName Ident.ofName?
  by_cases hsize : name.utf8ByteSize ≤ Ident.maxName
  · rw [if_pos hsize]
    exact silent_pure rfl
  · rw [if_neg hsize]
    exact proceeds_throw _

theorem silent_identOf (n : Node) (name : String) :
    Silent done (identOf n name : Lower σ Ident) fun i => i = n.machineIdent name := by
  unfold identOf
  split
  · rename_i i hi
    exact silent_pure (by simp [Node.machineIdent, Node.ident?, hi])
  · rename_i hnone
    refine (silent_identOfName name).mono fun i hi => ?_
    simp [Node.machineIdent, Node.ident?, hnone, hi]

theorem silent_identsOfNames (names : List String) :
    Silent done (identsOfNames names : Lower σ (List Ident)) fun _ => True := by
  induction names with
  | nil => exact silent_pure trivial
  | cons name names ih =>
    refine (silent_identOfName name).bind fun _ _ => ?_
    exact ih.bind fun _ _ => silent_pure trivial

theorem silent_attrExpr (t : Tree) (id : NodeId) :
    Silent done (attrExpr t id : Lower σ NodeId) fun expr =>
      expr = id ∨ ∃ n name, t.node? id = some n ∧ n.kind = .structAttr name expr := by
  refine (silent_nodeAt t id).bind fun n hn => ?_
  split
  · rename_i name expr hkind
    exact silent_pure (Or.inr ⟨n, name, hn, hkind⟩)
  · exact silent_pure (Or.inl rfl)

end Silence

/-! ## Settled instructions -/

section Settlement

variable {rs : List Register} {t : Tree} {done parts parts' computed computed' : List NodeId}
  {made made' : List Instr}

theorem Settled.append {computed'' : List NodeId}
    (h : Settled rs t done parts computed made computed')
    (h' : Settled rs t done parts' computed' made' computed'') :
    Settled rs t done (parts ++ parts') computed (made ++ made') computed'' := by
  have hnone : movesIntoAll rs (made ++ made') = [] ↔
      movesIntoAll rs made = [] ∧ movesIntoAll rs made' = [] := by
    rw [Instr.movesIntoAll_append, List.append_eq_nil_iff]
  constructor
  case calm =>
    intro hcalm
    obtain ⟨hfirst, hlast⟩ := List.forall_mem_append.mp hcalm
    exact hnone.mpr ⟨h.calm hfirst, h'.calm hlast⟩
  case looped =>
    rintro ⟨id, hid, hloop⟩ hmoves
    rcases List.mem_append.mp hid with hid | hid
    · exact h.looped ⟨id, hid, hloop⟩ (hnone.mp hmoves).1
    · exact h'.looped ⟨id, hid, hloop⟩ (hnone.mp hmoves).2
  case used =>
    rintro c hc hclear hpending ⟨id, hid, htogether⟩ hmoves
    obtain ⟨hfirst, hlast⟩ := List.forall_mem_append.mp hclear
    obtain ⟨hmade, hmade'⟩ := hnone.mp hmoves
    rcases List.mem_append.mp hid with hid | hid
    · exact h.used c hc hfirst hpending ⟨id, hid, htogether⟩ hmade
    · exact h'.used c (h.quiet c hc hfirst hmade) hlast hpending ⟨id, hid, htogether⟩ hmade'
  case quiet =>
    intro c hc hclear hmoves
    obtain ⟨hfirst, hlast⟩ := List.forall_mem_append.mp hclear
    obtain ⟨hmade, hmade'⟩ := hnone.mp hmoves
    exact h'.quiet c (h.quiet c hc hfirst hmade) hlast hmade'
  case kept =>
    intro c hc hclear
    obtain ⟨hfirst, hlast⟩ := List.forall_mem_append.mp hclear
    exact h'.kept c (h.kept c hc hfirst) hlast

/-- Only the moves count. -/
theorem Settled.congr (h : Settled rs t done parts computed made computed')
    (hmoves : movesIntoAll rs made' = movesIntoAll rs made) :
    Settled rs t done parts computed made' computed' := by
  obtain ⟨hcalm, hlooped, hused, hquiet, hkept⟩ := h
  rw [← hmoves] at hcalm hlooped
  refine ⟨hcalm, hlooped, ?_, ?_, hkept⟩
  · rw [hmoves]
    exact hused
  · rw [hmoves]
    exact hquiet

theorem settled_nil : Settled rs t done [] computed [] computed where
  calm _ := rfl
  looped := fun ⟨_, hid, _⟩ => nomatch hid
  used := fun _ _ _ _ ⟨_, hid, _⟩ => nomatch hid
  quiet _ hc _ _ := hc
  kept _ hc _ := hc

theorem settled_still {i : Instr} (h : i.isStill = true) :
    Settled rs t done [] computed [i] computed :=
  settled_nil.congr (by simp [movesIntoAll, Instr.movesInto_of_isStill h])

/-- A row that holds a loop over an iterable or the first use of a shared expression moves into the
registers. -/
theorem Settled.stirred {start before : List NodeId}
    (h : Settled rs t done parts computed made computed')
    (hbefore : ∀ c ∉ start, (∀ b ∈ before, ¬ t.Reaches b c) → c ∉ computed)
    (hstirs : t.Stirs start before parts) : movesIntoAll rs made ≠ [] := by
  obtain ⟨id, hid, c, htogether, hloop | ⟨hpending, hc, hclear, hhidden⟩⟩ := hstirs
  · exact h.looped ⟨id, hid, c, htogether, hloop⟩
  · exact h.used c (hbefore c hc hclear) hhidden hpending ⟨id, hid, htogether⟩

section Nodes

variable {id : NodeId} {n : Node} (hn : t.node? id = some n)

include hn

/-- A node that does not fill the registers itself is settled if what is lowered with it is. -/
theorem Settled.node (hkind : n.kind.fillsScratch = false)
    (h : Settled rs t done (t.inner n.kind) computed made computed') :
    Settled rs t done [id] computed made computed' := by
  have hclear : ∀ {c}, (∀ p ∈ [id], ¬ t.Hides p c) → ∀ p ∈ t.inner n.kind, ¬ t.Hides p c :=
    fun hid p hp hhides => hid id List.mem_cons_self (hhides.of_inner hn hp)
  constructor
  case calm => exact fun hcalm => h.calm ((hcalm id List.mem_cons_self).inv hn).2
  case looped =>
    rintro ⟨p, hp, c, htogether, hloop⟩
    rw [List.mem_singleton.mp hp] at htogether
    rcases htogether.inv hn with rfl | ⟨p, hp, htogether⟩
    · rw [NodeKind.fillsScratch_of_isForIn ((Tree.is_iff hn).mp hloop)] at hkind
      cases hkind
    · exact h.looped ⟨p, hp, c, htogether, hloop⟩
  case used =>
    rintro c hc hid hpending ⟨p, hp, htogether⟩
    rw [List.mem_singleton.mp hp] at htogether
    rcases htogether.inv hn with rfl | hinner
    · rw [NodeKind.fillsScratch_of_isPending ((Tree.is_iff hn).mp hpending)] at hkind
      cases hkind
    · exact h.used c hc (hclear hid) hpending hinner
  case quiet => exact fun c hc hid => h.quiet c hc (hclear hid)
  case kept =>
    refine fun c hc hid => h.kept c hc fun p hp hreaches => ?_
    exact hid id List.mem_cons_self ((Tree.reaches_of_mem_inner hn hp).trans hreaches)

/-- The same with one more instruction, which is none of the moves if the node keeps to itself. -/
theorem Settled.node_concat {i : Instr} (hkind : n.kind.fillsScratch = false)
    (h : Settled rs t done (t.inner n.kind) computed made computed')
    (hlast : t.KeepsScratch done id n.kind → movesInto rs i = []) :
    Settled rs t done [id] computed (made ++ [i]) computed' := by
  have hnode := h.node hn hkind
  have hfirst : movesIntoAll rs (made ++ [i]) = [] → movesIntoAll rs made = [] := by
    rw [Instr.movesIntoAll_append]
    exact fun hnone => (List.append_eq_nil_iff.mp hnone).1
  constructor
  case calm =>
    intro hcalm
    obtain ⟨hkeeps, -⟩ := (hcalm id List.mem_cons_self).inv hn
    rw [Instr.movesIntoAll_append, hnode.calm hcalm, movesIntoAll, hlast hkeeps]
    rfl
  case looped => exact fun hloop hnone => hnode.looped hloop (hfirst hnone)
  case used =>
    exact fun c hc hid hpending huses hnone => hnode.used c hc hid hpending huses (hfirst hnone)
  case quiet => exact fun c hc hid hnone => hnode.quiet c hc hid (hfirst hnone)
  case kept => exact hnode.kept

/-- A function moves into no register outside, and computes only what it reaches. -/
theorem Settled.function {body : NodeId} (hkind : n.kind = .lambda body)
    (hmoves : movesIntoAll rs made = [])
    (hkept : ∀ c ∉ computed, ¬ t.Reaches id c → c ∉ computed') :
    Settled rs t done [id] computed made computed' := by
  have hnode : Settled rs t done [id] computed made computed := by
    refine .node hn (by rw [hkind]; rfl) ?_
    rw [hkind]
    exact settled_nil.congr hmoves
  refine ⟨hnode.calm, hnode.looped, hnode.used, fun c hc hid _ => ?_, fun c hc hid => ?_⟩
  · refine hkept c hc fun hreaches => hid id List.mem_cons_self ?_
    exact ⟨id, .refl, (Tree.is_iff hn).mpr (by rw [hkind]; rfl), hreaches⟩
  · exact hkept c hc (hid id List.mem_cons_self)

end Nodes

end Settlement

section Settling

variable {rs : List Register} {t : Tree} {done parts parts' : List NodeId} {m : Lower σ α}
  {f : α → Lower σ β} {good : α → Prop} {good' : β → Prop}

theorem Settles.bind (hm : Settles rs t done parts m good)
    (hf : ∀ a, good a → Settles rs t done parts' (f a) good') :
    Settles rs t done (parts ++ parts') (m >>= f) good' := by
  refine Proceeds.bind hm fun computed a made computed' hgood => ?_
  refine (hf a hgood.2).weaken ?_
  rintro start made' computed'' b hgood' rfl
  exact ⟨hgood.1.append hgood'.1, hgood'.2⟩

theorem Settles.bind_left (hm : Settles rs t done parts m good)
    (hf : ∀ a, good a → Settles rs t done [] (f a) good') :
    Settles rs t done parts (m >>= f) good' := by
  have hboth := hm.bind hf
  rwa [List.append_nil] at hboth

theorem Settles.bind_right (hm : Settles rs t done [] m good)
    (hf : ∀ a, good a → Settles rs t done parts (f a) good') :
    Settles rs t done parts (m >>= f) good' := hm.bind hf

theorem settles_pure {a : α} (ha : good a) : Settles rs t done [] (pure a : Lower σ α) good :=
  proceeds_pure fun _ => ⟨settled_nil, ha⟩

theorem settles_push_still {i : Instr} (h : i.isStill = true) :
    Settles rs t done [] (push i : Lower σ Unit) fun _ => True :=
  proceeds_push fun _ => ⟨settled_still h, trivial⟩

theorem Settles.node {id : NodeId} {n : Node} (hn : t.node? id = some n)
    (hkind : n.kind.fillsScratch = false) (h : Settles rs t done (t.inner n.kind) m good) :
    Settles rs t done [id] m good :=
  h.weaken fun _ _ _ _ hgood => ⟨hgood.1.node hn hkind, hgood.2⟩

/-- The step lowers the nodes, settled, and then appends one more instruction. -/
def SettlesThen (rs : List Register) (t : Tree) (done parts : List NodeId) (m : Lower σ Unit)
    (good : Instr → Prop) : Prop :=
  Proceeds done m fun computed made computed' _ => ∃ first last, made = first ++ [last] ∧
    Settled rs t done parts computed first computed' ∧ good last

theorem settlesThen_push {i : Instr} {good : Instr → Prop} (h : good i) :
    SettlesThen rs t done [] (push i : Lower σ Unit) good :=
  proceeds_push fun _ => ⟨[], i, rfl, settled_nil, h⟩

theorem Settles.bind_then {f : α → Lower σ Unit} {good' : Instr → Prop}
    (hm : Settles rs t done parts m good)
    (hf : ∀ a, good a → SettlesThen rs t done parts' (f a) good') :
    SettlesThen rs t done (parts ++ parts') (m >>= f) good' := by
  refine Proceeds.bind hm fun computed a made computed' hgood => ?_
  refine (hf a hgood.2).weaken ?_
  rintro start - computed'' b ⟨first, last, rfl, hfirst, hlast⟩ rfl
  exact ⟨made ++ first, last, (List.append_assoc ..).symm, hgood.1.append hfirst, hlast⟩

end Settling

/-! ## Rows of nodes -/

section Nodes

variable {rs : List Register} {t : Tree} {done : List NodeId} {walk : Walk σ}

variable (hwalk : ∀ c, Settles rs t done [c] (walk c) fun _ => True)

include hwalk

theorem settles_operand (id : NodeId) :
    Settles rs t done [id] (operand t walk id) fun _ => True := by
  refine (hwalk id).bind_left fun result _ => ?_
  cases result with
  | some i => exact settles_pure trivial
  | none => exact (silent_nodeAt t id).bind fun _ _ => proceeds_throw _

theorem settles_operands (ids : List NodeId) :
    Settles rs t done ids (operands t walk ids) fun _ => True := by
  induction ids with
  | nil => exact settles_pure trivial
  | cons id ids ih =>
    refine (settles_operand hwalk id).bind fun _ _ => ?_
    exact ih.bind_left fun _ _ => settles_pure trivial

theorem settles_all (ids : List NodeId) :
    Settles rs t done ids (all walk ids) fun _ => True := by
  induction ids with
  | nil => exact settles_pure trivial
  | cons id ids ih => exact (hwalk id).bind fun _ _ => ih

/-- The statements of a block settle into a block of their own. -/
theorem proceeds_body (id : NodeId) :
    Proceeds done (body t walk id) fun computed made computed' inside => made = [] ∧
      ∃ n nodes, t.node? id = some n ∧ n.kind = .block nodes ∧
        Settled rs t done nodes computed inside computed' := by
  refine (silent_nodeAt t id).bind fun n hn => ?_
  cases hkind : n.kind with
  | block nodes =>
    have hall := (settles_all hwalk nodes).weaken fun _ _ _ _ hmade => hmade.1
    refine (proceeds_inBlock hall).weaken ?_
    rintro computed made computed' inside ⟨rfl, hinside⟩
    exact ⟨rfl, n, nodes, hn, hkind, hinside⟩
  | _ => exact proceeds_throw _

/-! ## Expressions -/

omit hwalk in
theorem settles_push_top {i : Instr} (h : i.isStill = true) :
    Settles rs t done [] (do push i; return top : Lower σ Instr) fun _ => True :=
  (settles_push_still h).bind_right fun _ _ => settles_pure trivial

omit hwalk in
theorem settles_literal (n : Node) :
    Settles rs t done [] (literal n : Lower σ Instr) fun _ => True := by
  unfold literal
  split
  · exact settles_pure trivial
  · exact proceeds_throw _

omit hwalk in
theorem settles_ident (n : Node) (name : String) :
    Settles rs t done [] (ident n name : Lower σ Instr) fun _ => True :=
  (silent_identOf n name).bind fun _ _ => settles_pure trivial

theorem settles_iterable (n : Node) (exprs : List NodeId) :
    Settles rs t done exprs (iterable t walk n exprs) fun _ => True := by
  refine (silent_tyOf n _).bind fun _ _ => ?_
  exact (settles_operands hwalk exprs).bind_left fun _ _ => settles_pure trivial

theorem settles_attrs (ids : List NodeId) :
    Settles rs t done ids (attrs t walk ids) fun _ => True := by
  induction ids with
  | nil => exact settles_pure trivial
  | cons id ids ih =>
    refine (silent_attrExpr t id).bind fun expr hexpr => ?_
    have hoperand : Settles rs t done [id] (operand t walk expr) fun _ => True := by
      rcases hexpr with rfl | ⟨n, name, hn, hkind⟩
      · exact settles_operand hwalk expr
      · refine .node hn (by rw [hkind]; rfl) ?_
        rw [hkind]
        exact settles_operand hwalk expr
    refine hoperand.bind fun _ _ => ?_
    exact ih.bind_left fun _ _ => settles_pure trivial

theorem settles_struct (n : Node) (ids : List NodeId) :
    Settles rs t done ids (struct t walk n ids) fun _ => True := by
  refine (silent_tyOf n _).bind fun _ _ => ?_
  exact (settles_attrs hwalk ids).bind_left fun _ _ => settles_pure trivial

theorem settles_call (n : Node) (callee : NodeId) (args : List NodeId) :
    Settles rs t done (callee :: args) (call t walk n callee args) fun _ => True := by
  refine (settles_operand hwalk callee).bind fun _ _ => ?_
  exact (settles_operands hwalk args).bind_left fun _ _ => settles_push_top rfl

theorem settles_index (n : Node) (expr position : NodeId) (nilSafe : Bool) :
    Settles rs t done [expr, position] (index t walk n expr position nilSafe) fun _ => True := by
  refine (settles_operand hwalk expr).bind fun _ _ => ?_
  exact (settles_operand hwalk position).bind_left fun _ _ => settles_push_top rfl

theorem settles_dot (n : Node) (expr : NodeId) (name : String) (nilSafe : Bool) :
    Settles rs t done [expr] (dot t walk n expr name nilSafe) fun _ => True := by
  refine (settles_operand hwalk expr).bind_left fun _ _ => ?_
  exact (silent_identOf n name).bind fun _ _ => settles_push_top rfl

theorem settles_spread (n : Node) (expr : NodeId) :
    Settles rs t done [expr] (spread t walk n expr) fun _ => True := by
  have hwrap : ∀ ty, Settles rs t done [expr]
      (do return .wrapped ty (← operand t walk expr) n.span : Lower σ Instr) fun _ => True :=
    fun ty => (settles_operand hwalk expr).bind_left fun _ _ => settles_pure trivial
  unfold spread
  split
  · exact hwrap _
  · refine (silent_nodeAt t expr).bind fun m _ => ?_
    exact (silent_tyOf m _).bind fun ty _ => hwrap ty

theorem settles_binary (n : Node) (op : Operator) (left right : NodeId) :
    Settles rs t done [left, right] (binary t walk n op left right) fun _ => True := by
  refine (settles_operand hwalk left).bind fun _ _ => ?_
  exact (settles_operand hwalk right).bind_left fun _ _ => settles_push_top rfl

theorem settles_unary (n : Node) (op : Operator) (expr : NodeId) :
    Settles rs t done [expr] (unary t walk n op expr) fun _ => True :=
  (settles_operand hwalk expr).bind_left fun _ _ => settles_push_top rfl

theorem settles_ternary (n : Node) (cond ifTrue ifFalse : NodeId) :
    Settles rs t done [cond, ifTrue, ifFalse] (ternary t walk n cond ifTrue ifFalse)
      fun _ => True := by
  refine (settles_operand hwalk cond).bind fun _ _ => ?_
  refine (settles_operand hwalk ifTrue).bind fun _ _ => ?_
  exact (settles_operand hwalk ifFalse).bind_left fun _ _ => settles_push_top rfl

theorem settles_cast (n : Node) (expr : NodeId) :
    Settles rs t done [expr] (cast t walk n expr) fun _ => True := by
  refine (settles_operand hwalk expr).bind_left fun _ _ => ?_
  refine (silent_tyOf n _).bind fun _ _ => ?_
  split
  · split
    · exact settles_push_top rfl
    · exact settles_pure trivial
  · exact settles_push_top rfl

/-- What moves inside a function does not count outside. -/
theorem settles_lambda {id : NodeId} {n : Node} {block : NodeId} (hn : t.node? id = some n)
    (hkind : n.kind = .lambda block) :
    Settles rs t done [id] (lambda t walk n block) fun _ => True := by
  refine (silent_tyOf n _).bind fun _ _ => ?_
  split
  · refine Proceeds.bind (proceeds_body hwalk block) ?_
    rintro computed inside made computed' ⟨rfl, b, nodes, hb, hnodes, hinside⟩
    refine proceeds_push_bind (proceeds_pure ?_)
    rintro start rfl
    refine ⟨.function hn hkind rfl fun c hc hreaches => ?_, trivial⟩
    refine hinside.kept c hc fun p hp hbelow => hreaches ?_
    have hblock : t.Reaches id block := Tree.reaches_child hn (by simp [hkind, NodeKind.children])
    exact hblock.trans ((Tree.reaches_child hb (by rwa [hnodes])).trans hbelow)
  · exact proceeds_throw _

/-! ## Statements -/

omit hwalk in
/-- The whole of a shared expression is computed at its first use and never again. -/
theorem sharedWhole_cases {id : NodeId} {n : Node} {expr : NodeId} {flag : Bool}
    {s s' : LowerState σ} {r : Instr} (h : sharedWhole t walk id n expr flag s = .ok r s') :
    r = .register .ra n.span ∧ (((flag || s.processed.contains id) = true ∧ s' = s) ∨
      ((flag || s.processed.contains id) = false ∧ ∃ v s₁, operand t walk expr s = .ok v s₁ ∧
        s' = ⟨s₁.names, s₁.loopEnds, id :: s₁.processed,
          s₁.out.push (.mov (.register .ra n.span) v n.span)⟩)) := by
  obtain ⟨found, s₀, hfound, hrest⟩ := bind_eq_ok h
  obtain ⟨rfl, rfl⟩ : found = (flag || s.processed.contains id) ∧ s₀ = s := by
    cases hfound
    exact ⟨rfl, rfl⟩
  cases hcase : (flag || s₀.processed.contains id) with
  | true =>
    rw [hcase] at hrest
    cases hrest
    exact ⟨rfl, Or.inl ⟨rfl, rfl⟩⟩
  | false =>
    rw [hcase] at hrest
    obtain ⟨v, s₁, hoperand, hmoved⟩ := bind_eq_ok hrest
    cases hmoved
    exact ⟨rfl, Or.inr ⟨rfl, v, s₁, hoperand, rfl⟩⟩

theorem settles_sharedWhole (hra : .ra ∈ rs) {id : NodeId} {n : Node} {expr : NodeId} {flag : Bool}
    (hn : t.node? id = some n) (hkind : n.kind = .shared expr flag) :
    Settles rs t done [id] (sharedWhole t walk id n expr flag) fun _ => True := by
  have honly : ∀ {p c}, p ∈ [id] → t.Together p c → c = id := by
    intro p c hp htogether
    rw [List.mem_singleton.mp hp] at htogether
    exact htogether.eq_of_inner_eq_nil hn (by rw [hkind]; rfl)
  intro s r s' hdone h
  rcases (sharedWhole_cases h).2 with ⟨hcomputed, rfl⟩ | ⟨hfirst, v, s₁, hoperand, rfl⟩
  · refine ⟨hdone, [], (List.append_nil _).symm, ⟨fun _ => rfl, ?_, ?_, ?_, ?_⟩, trivial⟩
    · rintro ⟨p, hp, c, htogether, hloop⟩
      rw [honly hp htogether, Tree.is_iff hn, hkind] at hloop
      cases hloop
    · rintro c hc - hpending ⟨p, hp, htogether⟩
      rw [honly hp htogether] at hpending hc
      rw [Tree.is_iff hn, hkind] at hpending
      simp only [NodeKind.isPending, Bool.not_eq_true'] at hpending
      rw [hpending, Bool.false_or, List.contains_iff_mem] at hcomputed
      exact absurd hcomputed hc
    · exact fun c hc _ _ => hc
    · exact fun c hc _ => hc
  · obtain ⟨hdone', made, hout, hsettled, -⟩ := settles_operand hwalk expr s v s₁ hdone hoperand
    have hmoved : movesIntoAll rs (made ++ [.mov (.register .ra n.span) v n.span]) ≠ [] := by
      simp [Instr.movesIntoAll_append, movesIntoAll, movesInto, Instr.refersTo_register hra]
    refine ⟨fun c hc => List.mem_cons_of_mem _ (hdone' hc), _, ?_,
      ⟨fun hcalm => ?_, fun _ => hmoved, fun _ _ _ _ _ => hmoved, fun _ _ _ hnone => ?_, ?_⟩,
      trivial⟩
    · rw [Array.toList_push, hout, List.append_assoc]
    · -- A calm node would have been computed before.
      have hkeeps := ((hcalm id List.mem_cons_self).inv hn).1
      rw [hkind] at hkeeps
      rw [Bool.or_eq_false_iff] at hfirst
      rcases hkeeps with hflag | hid
      · rw [hflag] at hfirst
        cases hfirst.1
      · have hcomputed := List.contains_iff_mem.mpr (hdone hid)
        rw [hcomputed] at hfirst
        cases hfirst.2
    · exact absurd hnone hmoved
    · intro c hc hid
      have hclear := hid id List.mem_cons_self
      have hexpr : t.Reaches id expr := Tree.reaches_child hn (by simp [hkind, NodeKind.children])
      refine List.not_mem_cons_of_ne_of_not_mem ?_ (hsettled.kept c hc fun p hp hreaches => ?_)
      · rintro rfl
        exact hclear .refl
      · rw [List.mem_singleton.mp hp] at hreaches
        exact hclear (hexpr.trans hreaches)

theorem settles_declared (hra : .ra ∈ rs) (expr : NodeId) (element : Nat) :
    Settles rs t done [expr] (declared t walk expr element) fun _ => True := by
  refine (silent_nodeAt t expr).bind fun e he => ?_
  split
  · rename_i inner flag hkind
    refine (settles_sharedWhole hwalk hra he hkind).bind_left fun _ _ => ?_
    exact settles_push_top rfl
  · exact settles_operand hwalk expr

theorem settles_set (hra : .ra ∈ rs) (n : Node) (isPub isConst : Bool) (name : String)
    (expr : NodeId) (element : Nat) :
    Settles rs t done [expr] (set t walk n isPub isConst name expr element) fun _ => True := by
  refine (settles_declared hwalk hra expr element).bind_left fun _ _ => ?_
  refine (silent_identOf n name).bind fun _ _ => ?_
  exact (silent_tyOf n _).bind fun _ _ => settles_push_still rfl

theorem settles_func (n : Node) (isPub : Bool) (name : String) (function : NodeId) :
    Settles rs t done [function] (func t walk n isPub name function) fun _ => True := by
  refine (silent_nodeAt t function).bind fun f hf => ?_
  split
  · rename_i block hkind
    refine (settles_lambda hwalk hf hkind).bind_left fun _ _ => ?_
    refine (silent_identOf n name).bind fun _ _ => ?_
    exact (silent_tyOf n _).bind fun _ _ => settles_push_still rfl
  · exact proceeds_throw _

omit hwalk in
theorem settles_typeAlias (n : Node) (isPub : Bool) (name : String) :
    Settles rs t done [] (typeAlias n isPub name : Lower σ Unit) fun _ => True := by
  refine (silent_tyOf n _).bind fun _ _ => ?_
  exact (silent_identOfName name).bind fun _ _ => settles_push_still rfl

omit hwalk in
theorem settles_use (n : Node) (resolved : String) (imports : List String) (mode : UseMode) :
    Settles rs t done [] (use n resolved imports mode : Lower σ Unit) fun _ => True := by
  unfold use
  split
  · refine (silent_identsOfNames imports).bind fun _ _ => ?_
    exact (silent_identOfName resolved).bind fun _ _ => settles_push_still rfl
  · exact settles_pure trivial

theorem settles_collection (n : Node) (op : CollectionOp) (target value : NodeId) :
    Settles rs t done [target, value] (collection t walk n op target value) fun _ => True := by
  refine (settles_operand hwalk target).bind fun _ _ => ?_
  exact (settles_operand hwalk value).bind_left fun _ _ => settles_push_still rfl

theorem settles_ret (n : Node) (expr : Option NodeId) :
    Settles rs t done expr.toList (ret t walk n expr) fun _ => True := by
  cases expr with
  | some expr => exact (settles_operand hwalk expr).bind_left fun _ _ => settles_push_still rfl
  | none => exact settles_push_still rfl

theorem settles_block {id : NodeId} {n : Node} {nodes : List NodeId} (hn : t.node? id = some n)
    (hkind : n.kind = .block nodes) :
    Settles rs t done nodes (block t walk id n) fun _ => True := by
  refine Proceeds.bind (proceeds_body hwalk id) ?_
  rintro computed inside made computed' ⟨rfl, n', nodes', hn', hkind', hinside⟩
  cases hn.symm.trans hn'
  cases hkind.symm.trans hkind'
  refine proceeds_push ?_
  rintro start rfl
  exact ⟨hinside.congr (List.append_nil _), trivial⟩

/-- The last instruction of an assignment moves into a scratch register only if the target is
one. -/
theorem settlesThen_update (hrs : ∀ r ∈ rs, r = .ra ∨ r = .ri) {lhs rhs : NodeId} (n : Node) :
    SettlesThen rs t done (t.inner (.update lhs rhs)) (update t walk n lhs rhs) fun last =>
      t.AssignsPlainly lhs → movesInto rs last = [] := by
  refine (silent_nodeAt t lhs).bind fun l hl => ?_
  have hinner : t.inner (.update lhs rhs) = l.kind.targetParts lhs ++ [rhs] := by
    simp only [Tree.inner, Tree.kind?, hl, Option.map_some, Option.elim_some]
  rw [hinner]
  obtain ⟨kind, span, parent, info⟩ := l
  cases kind with
  | index expr position nilSafe =>
    refine (settles_operand hwalk expr).bind_then fun target _ => ?_
    refine (settles_operand hwalk position).bind_then fun i _ => ?_
    exact (settles_operand hwalk rhs).bind_then fun v _ => settlesThen_push fun _ => rfl
  | dot expr name nilSafe =>
    refine (settles_operand hwalk expr).bind_then fun target _ => ?_
    refine (silent_identOf _ name).bind fun i _ => ?_
    exact (settles_operand hwalk rhs).bind_then fun v _ => settlesThen_push fun _ => rfl
  | ident name =>
    refine (silent_identOf _ name).bind fun i hi => ?_
    have hvalue : Settles rs t done [lhs, rhs] (operand t walk rhs) fun _ => True :=
      (settles_operand hwalk rhs).weaken fun _ _ _ _ hmade =>
        ⟨(Settled.node hl rfl settled_nil).append hmade.1, trivial⟩
    refine hvalue.bind_then fun v _ => settlesThen_push fun hplainly => ?_
    obtain ⟨l, hl', hscratch⟩ := hplainly
    cases hl.symm.trans hl'
    rw [hi]
    have hrefers := Instr.refersTo_of_not_isScratch hrs hscratch span
    simp only [movesInto, Instr.reference, hrefers]
    rfl
  | _ =>
    refine (settles_operand hwalk lhs).bind_then fun target _ => ?_
    refine (settles_operand hwalk rhs).bind_then fun v _ => settlesThen_push fun hplainly => ?_
    obtain ⟨l, hl', hnone⟩ := hplainly
    cases hl.symm.trans hl'
    cases hnone

theorem settles_update (hrs : ∀ r ∈ rs, r = .ra ∨ r = .ri) {id : NodeId} {n : Node}
    {lhs rhs : NodeId} (hn : t.node? id = some n) (hkind : n.kind = .update lhs rhs) :
    Settles rs t done [id] (update t walk n lhs rhs) fun _ => True := by
  refine (settlesThen_update hwalk hrs n).weaken ?_
  rintro computed - computed' - ⟨first, last, rfl, hfirst, hlast⟩
  refine ⟨.node_concat hn (by rw [hkind]; rfl) (by rwa [hkind]) fun hkeeps => ?_, trivial⟩
  rw [hkind] at hkeeps
  exact hlast hkeeps

/-! ## Chains of conditions -/

theorem settles_guards (span : Span) (truth : Bool) (label : Ident) (conds : List NodeId) :
    Settles rs t done conds (guards t walk span truth label conds) fun _ => True := by
  induction conds with
  | nil => exact settles_pure trivial
  | cons cond conds ih =>
    refine (settles_operand hwalk cond).bind fun _ _ => ?_
    refine (silent_nodeAt t cond).bind fun _ _ => ?_
    exact (settles_push_still rfl).bind_right fun _ _ => ih

theorem settles_branches [NameSupply σ] (span : Span) (ids : List NodeId) :
    Settles rs t done (ids.flatMap t.branchConds) (branches t walk span ids) fun blocks =>
      blocks.map Prod.snd = ids.flatMap t.branchBlock := by
  induction ids with
  | nil => exact settles_pure rfl
  | cons id ids ih =>
    refine (silent_nodeAt t id).bind fun n hn => ?_
    cases hkind : n.kind with
    | ifChain conds block elseIfs elseBlock =>
      have hconds : t.branchConds id = conds := by
        simp only [Tree.branchConds, Tree.kind?, hn, Option.map_some, Option.elim_some, hkind,
          NodeKind.branchConds]
      have hblock : t.branchBlock id = [block] := by
        simp only [Tree.branchBlock, Tree.kind?, hn, Option.map_some, Option.elim_some, hkind,
          NodeKind.branchBlock]
      rw [List.flatMap_cons, List.flatMap_cons, hconds, hblock]
      refine silent_fresh.bind fun label _ => ?_
      refine (settles_guards hwalk span true label conds).bind fun _ _ => ?_
      refine ih.bind_left fun blocks hblocks => ?_
      exact settles_pure (congrArg (block :: ·) hblocks)
    | _ => exact proceeds_throw _

theorem settles_labelled (span : Span) (finish : Ident) (blocks : List (Ident × NodeId)) :
    Settles rs t done (blocks.map Prod.snd) (labelled walk span finish blocks) fun _ => True := by
  induction blocks with
  | nil => exact settles_pure trivial
  | cons first others ih =>
    obtain ⟨label, block⟩ := first
    cases others with
    | nil =>
      refine (settles_push_still rfl).bind_right fun _ _ => ?_
      exact (hwalk block).bind_left fun _ _ => settles_pure trivial
    | cons next others =>
      refine (settles_push_still rfl).bind_right fun _ _ => ?_
      refine (hwalk block).bind fun _ _ => ?_
      exact (settles_push_still rfl).bind_right fun _ _ => ih

theorem settles_ifChain [NameSupply σ] {id : NodeId} {n : Node} {conds elseIfs : List NodeId}
    {block : NodeId} {elseBlock : Option NodeId} (hn : t.node? id = some n)
    (hkind : n.kind = .ifChain conds block elseIfs elseBlock) :
    Settles rs t done (t.inner n.kind) (ifChain t walk id n elseIfs elseBlock) fun _ => True := by
  have hinner : t.inner n.kind = (id :: elseIfs).flatMap t.branchConds ++
      (elseBlock.toList ++ (id :: elseIfs).flatMap t.branchBlock) := by
    simp [hkind, Tree.inner, Tree.branchConds, Tree.branchBlock, Tree.kind?, hn,
      NodeKind.branchConds, NodeKind.branchBlock]
  rw [hinner]
  refine silent_fresh.bind fun finish _ => ?_
  refine (settles_branches hwalk n.span (id :: elseIfs)).bind fun blocks hblocks => ?_
  refine (settles_all hwalk elseBlock.toList).bind fun _ _ => ?_
  refine (settles_push_still rfl).bind_right fun _ _ => ?_
  rw [← hblocks]
  exact (settles_labelled hwalk n.span finish blocks).bind_left fun _ _ => settles_push_still rfl

end Nodes

end Lower

end BytecodeCompiler
