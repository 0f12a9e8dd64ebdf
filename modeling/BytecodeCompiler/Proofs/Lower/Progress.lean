import BytecodeCompiler.Proofs.Lower.Completion

-- Lowering does not fail on well-formed programs. The walk goes to smaller and smaller numbers, so
-- it has steps enough, and before it comes to a break it has met the loop that the break leaves.

namespace BytecodeCompiler.Lower

open NameSupply (Draws NeverEnds)

variable {σ : Type} [NameSupply σ]

/-! ## Whole trees -/

section Trees

variable {t : Tree} {root id : Nat} {walk : Walk σ} {needs : NodeId → Prop}

/-- The walk gets through the nodes below the file up to a number: each needs the loops that it
stands in, and an expression gives an operand. -/
def GetsThrough (t : Tree) (root : NodeId) (walk : Walk σ) (bound : Nat) : Prop :=
  ∀ {c : Nat}, t.Reaches root c → c < bound → Completes (t.StandsIn root c) (walk c) fun result =>
    t.Is NodeKind.isExpression c → result.isSome = true

variable (h : t.WellFormed root) (hwalk : GetsThrough t root walk id)

include h

/-- A node stands in the loops that a node below it stands in, if there is no loop in between. -/
theorem standsIn_of_beside {c l : NodeId} (hid : t.Reaches root id) (hbeside : t.Beside id c)
    (hin : t.StandsIn root c l) : t.StandsIn root id l := by
  induction hbeside with
  | single hedge =>
    exact (h.standsIn_child hid hedge.1 hin).2.resolve_left fun hloop => hedge.2 hloop.2
  | tail hpath hedge ih =>
    have hreach := hid.trans (Tree.Beside.below hpath).to_reflTransGen
    exact ih ((h.standsIn_child hreach hedge.1 hin).2.resolve_left fun hloop => hedge.2 hloop.2)

include hwalk

theorem completes_below {c : NodeId} (hid : t.Reaches root id) (hc : t.Below id c)
    (hneeds : ∀ l, t.StandsIn root c l → needs l) :
    Completes needs (walk c) fun result =>
      t.Is NodeKind.isExpression c → result.isSome = true := by
  obtain ⟨d, hd, hreach⟩ := Relation.TransGen.head'_iff.mp hc
  have hlt := h.ordered hid hd
  have hle := h.le_of_reaches (hid.tail hd) hreach
  exact (hwalk (hid.trans hc.to_reflTransGen) (by omega)).mono hneeds

/-- Below a node of the program, nodes are there and sound, and values complete with any loops. -/
theorem grounded_of_wellFormed (needs : NodeId → Prop) (hid : t.Reaches root id) :
    (completing needs).Grounded t walk walk id where
  fits c hc := by
    obtain ⟨n, hn⟩ := h.exists_node (hid.trans hc)
    exact completing_fits hn (h.sound (hid.trans hc) hn)
  value above c habove hc := by
    obtain ⟨n, hn, hmem⟩ := hc
    have hexpr := (h.sound (hid.trans habove) hn).values c hmem
    have hbelow : t.Below id c :=
      .tail' habove ⟨n, hn, NodeKind.mem_children_of_mem_values hmem⟩
    refine Completes.value ((completes_below h hwalk hid hbelow fun l hl => ?_).weaken
      fun _ hgood => hgood hexpr)
    exact absurd hexpr hl.statement

/-- What stands in a loop may need it. -/
theorem visit_round_of_wellFormed {n : Node} (hid : t.Reaches root id) (hn : t.node? id = some n) :
    ∀ c ∈ n.kind.children,
      (completing fun l => t.StandsIn root id l ∨ l = id).Visit walk walk c := by
  intro c hc
  have hchild : t.IsChild id c := ⟨n, hn, hc⟩
  refine Completes.visit ((completes_below h hwalk hid (.single hchild) fun l hl => ?_).weaken
    fun _ _ => trivial)
  exact (h.standsIn_child hid hchild hl).2.symm.imp_right And.left

theorem completes_forIf {n : Node} {sets : Option NodeId} {conds : List NodeId} {block : NodeId}
    (hid : t.Reaches root id) (hn : t.node? id = some n)
    (hkind : n.kind = .forIf sets conds block) :
    Completes (t.StandsIn root id) (forIf t walk id n sets conds block) fun _ => True := by
  have hround := visit_round_of_wellFormed h hwalk hid hn
  have hcond : ∀ c ∈ conds, t.IsValue id c := fun c hc => ⟨n, hn, by rwa [hkind]⟩
  have hground := grounded_of_wellFormed h hwalk (fun l => t.StandsIn root id l ∨ l = id) hid
  rw [hkind] at hround
  refine completes_loop fun labels => ?_
  apply (completingControl _).step_round trivial trivial trivial (Pairing.pure_same _ trivial)
  · exact fun c hc => hround c (by simp [NodeKind.children, hc])
  · exact Pairing.pure_same _ trivial
  · exact fun c hc => hground.fits c (.single (hcond c hc).isChild)
  · exact fun c hc => hground.value id c .refl (hcond c hc)
  · exact hround block (by simp [NodeKind.children])

theorem completes_forIn {n : Node} {key value : Option NodeId} {expr block : NodeId}
    (hid : t.Reaches root id) (hn : t.node? id = some n)
    (hkind : n.kind = .forIn key value expr block) :
    Completes (t.StandsIn root id) (forIn t walk id n key value expr block) fun _ => True := by
  have hround := visit_round_of_wellFormed h hwalk hid hn
  have hground := grounded_of_wellFormed h hwalk (fun l => t.StandsIn root id l ∨ l = id) hid
  have hfits := (grounded_of_wellFormed h hwalk (t.StandsIn root id) hid).fits
  have hset : ∀ c ∈ key.toList ++ value.toList, t.IsChild id c ∧ t.Is NodeKind.isSet c := by
    intro c hc
    have hfixed := (h.sound hid hn).fixed c (by rwa [hkind])
    rw [hkind] at hfixed
    exact ⟨⟨n, hn, by rw [hkind]; exact List.mem_append_left _ hc⟩, hfixed⟩
  obtain ⟨hkey, hvalue⟩ := List.forall_mem_append.mp hset
  rw [hkind] at hround
  refine Completes.bind (Pairing.step_loopTarget? (fun c hc => hfits c (.single (hkey c hc).1))
    fun c hc => .inr (hkey c hc).2) fun keyTarget _ => ?_
  refine Completes.bind (Pairing.step_loopTarget? (fun c hc => hfits c (.single (hvalue c hc).1))
    fun c hc => .inr (hvalue c hc).2) fun valueTarget _ => ?_
  refine completes_loop fun labels => ?_
  apply (completingControl _).step_round trivial trivial trivial
  · exact Pairing.step_startElements trivial (hground.value id expr .refl
      ⟨n, hn, by rw [hkind]; exact List.mem_cons_self⟩)
  · exact fun c hc => hround c (List.mem_append_left _ hc)
  · exact (completingControl _).step_eachElement trivial (fun _ _ => trivial)
      (fun _ _ => trivial) trivial
  · exact List.forall_mem_nil _
  · exact List.forall_mem_nil _
  · exact hround block (by simp [NodeKind.children])

/-- Every rule completes. A loop is met before its round, and a break stands in a loop. All other
rules go down to values and to what stands in the same loops. -/
theorem completes_rule (hid : t.Reaches root id) {n : Node} (hn : t.node? id = some n) :
    Completes (t.StandsIn root id) (rule t walk id) fun _ => True := by
  by_cases hscope : n.kind.isLoop = false ∧ n.kind.isBreak = false
  · have hvisit : ∀ c, t.Beside id c → (completing (t.StandsIn root id)).Visit walk walk c := by
      intro c hc
      refine Completes.visit ((completes_below h hwalk hid hc.below fun l hl => ?_).weaken
        fun _ _ => trivial)
      exact standsIn_of_beside h hid hc hl
    have hrule := Pairing.Control.visit_rule (k := completingControl (t.StandsIn root id))
      completing_fresh completing_takesBodies hn hscope.1 hscope.2
      (grounded_of_wellFormed h hwalk _ hid) hvisit
    exact Completes.weaken hrule fun _ _ => trivial
  · rw [rule, nodeAt_eq hn, pure_bind]
    rcases n with ⟨kind, span, parent, info⟩
    cases kind with
    | forIf sets conds block =>
      exact (completes_forIf h hwalk hid hn rfl).bind fun _ _ => completes_pure trivial
    | forIn key value expr block =>
      exact (completes_forIn h hwalk hid hn rfl).bind fun _ _ => completes_pure trivial
    | breakLoop =>
      obtain ⟨l, hin, hloop⟩ := h.standsIn_of_break hid ((Tree.is_iff hn).mpr rfl)
      exact (completes_breakLoop _ hloop hin).bind fun _ _ => completes_pure trivial
    | _ => exact absurd ⟨rfl, rfl⟩ hscope

/-- And where the node is an expression, the rule gives an operand. -/
theorem getsThrough_rule (hid : t.Reaches root id) :
    Completes (t.StandsIn root id) (rule t walk id) fun result =>
      t.Is NodeKind.isExpression id → result.isSome = true := by
  obtain ⟨n, hn⟩ := h.exists_node hid
  by_cases hattr : ∃ name expr, n.kind = .structAttr name expr
  · obtain ⟨name, expr, hkind⟩ := hattr
    have hmem : expr ∈ n.kind.values := by rw [hkind]; exact List.mem_cons_self
    have hexpr := (h.sound hid hn).values expr hmem
    have hchild : t.IsChild id expr := ⟨n, hn, NodeKind.mem_children_of_mem_values hmem⟩
    rw [rule, nodeAt_eq hn, pure_bind, hkind]
    refine (completes_below h hwalk hid (.single hchild) fun l hl => ?_).weaken
      fun _ hgood _ => hgood hexpr
    exact absurd hexpr hl.statement
  · simp only [not_exists] at hattr
    refine (completes_rule h hwalk hid hn).of_run fun s r s' hrun hexpr => ?_
    exact isSome_of_rule hn ((Tree.is_iff hn).mp hexpr) hattr hrun

omit hwalk in
/-- The walk with so many steps gets through the nodes of smaller numbers. -/
theorem getsThrough_within (steps : Nat) :
    GetsThrough t root (within t steps : Walk σ) steps := by
  induction steps with
  | zero => exact fun _ hlt => absurd hlt (Nat.not_lt_zero _)
  | succ steps ih =>
    intro c hc hlt
    refine getsThrough_rule h (fun hd hdlt => ih hd ?_) hc
    omega

omit hwalk in
theorem completes_root : Completes (fun _ => False) (Lower.root t root : Lower σ Unit)
    fun _ => True := by
  obtain ⟨n, hn, hfile⟩ := Tree.exists_node_of_is h.file
  have hsize := h.reaches_lt_size .refl
  have hwithin : GetsThrough t root (within t (enough t) : Walk σ) root :=
    fun hc hlt => getsThrough_within h (enough t) hc (by unfold enough; omega)
  have hstep : (completing (σ := σ) fun _ => False).step (Same fun _ => True)
      (Lower.root t root) (Lower.root t root) := by
    apply Pairing.bind_same _ (Pairing.step_nodeAt (completing_fits hn (h.sound .refl hn)))
    intro m hm
    cases hn.symm.trans hm
    refine Pairing.step_file (.inr hfile) fun c hc => ?_
    have hchild : t.IsChild root c := ⟨n, hn, hc⟩
    refine Completes.visit ((completes_below h hwithin .refl (.single hchild) fun l hl => ?_).weaken
      fun _ _ => trivial)
    -- A file is no loop, and stands in none.
    rcases (h.standsIn_child .refl hchild hl).2 with ⟨-, hloop⟩ | hstands
    · rw [Tree.is_iff hn] at hloop
      cases hkind : n.kind with
      | file pkg nodes => rw [hkind] at hloop; cases hloop
      | _ => rw [hkind] at hfile; cases hfile
    · exact h.not_standsIn_root hstands
  exact Completes.weaken hstep fun _ _ => trivial

end Trees

/-- Lowering does not fail on a well-formed program. If there is always another name for a label it
ends with instructions, and the one fault that it can ever meet is that there are no more names. -/
theorem root_ok_of_wellFormed {t : Tree} {root : NodeId} (h : t.WellFormed root)
    (s : LowerState σ) :
    (NeverEnds s.names → ∃ s', Lower.root t root s = .ok () s') ∧
      ∀ fault s', Lower.root t root s = .error fault s' →
        fault = .namesExhausted ∧ ∃ drawn, Draws s.names drawn s'.names ∧
          NameSupply.fresh s'.names = none := by
  have hend := completes_root h s fun l hl => hl.elim
  generalize Lower.root t root s = result at hend
  cases hend with
  | done =>
    refine ⟨fun _ => ⟨_, rfl⟩, fun fault s' hfault => ?_⟩
    cases hfault
  | @exhausted s' drawn hdraws hnone =>
    refine ⟨fun hnever => absurd hnone (hnever drawn s'.names hdraws), fun fault s'' hfault => ?_⟩
    cases hfault
    exact ⟨rfl, drawn, hdraws, hnone⟩

/-- A file that takes a pair apart, and whose function walks over the first half up to the first
element that holds. -/
def searchingTree : Tree :=
  ⟨#[node 1 (.ident "pair") (named "pair"),
    node 2 (.shared 0 false) .empty,
    node 4 (.set false true "xs" 1 0) (typed .any "xs"),
    node 4 (.set false true "rest" 1 1) (typed .any "rest"),
    node 17 (.sets [2, 3]) .empty,
    node 13 (.ident "xs") (named "xs"),
    node 7 .literal ⟨some .any, some .nil, none, none, none⟩,
    node 13 (.set false false "x" 6 0) (typed .any "x"),
    node 11 (.ident "x") (named "x"),
    node 10 .breakLoop .empty,
    node 11 (.block [9]) .empty,
    node 12 (.ifChain [8] 10 [] none) .empty,
    node 13 (.block [11]) .empty,
    node 14 (.forIn none (some 7) 5 12) .empty,
    node 15 (.block [13]) .empty,
    node 16 (.lambda 14) (typed main "main"),
    node 17 (.func false "main" 15) (typed main "main"),
    ⟨.file "f" [4, 16], .none, none, .empty⟩]⟩
where
  node (parent : NodeId) (kind : NodeKind) (info : Inferred) : Node :=
    ⟨kind, .none, some parent, info⟩
  named (name : String) : Inferred := ⟨none, none, some (.name name), none, none⟩
  typed (ty : Ty) (name : String) : Inferred := ⟨some ty, none, some (.name name), none, none⟩
  main : Ty := .lambda [] .any false

theorem searchingTree_wellFormed : searchingTree.WellFormed 17 := by
  have hchild : ∀ p c : NodeId, (searchingTree.kind? p).any (·.children.contains c) = true →
      searchingTree.IsChild p c := by
    intro p c h
    obtain ⟨n, hn, hmem⟩ := Tree.exists_node_of_is h
    exact ⟨n, hn, List.contains_iff_mem.mp hmem⟩
  refine .of_nodes (by decide) (by decide) (by decide) fun id hid hbreak => ⟨13, ?_, by decide, ?_⟩
  · exact .head (hchild 17 16 rfl) (.head (hchild 16 15 rfl)
      (.head (hchild 15 14 rfl) (.single (hchild 14 13 rfl))))
  · have honly : ∀ id < searchingTree.size, searchingTree.Is NodeKind.isBreak id → id = 9 := by
      decide
    obtain rfl := honly id hid hbreak
    exact .head ⟨hchild 13 12 rfl, by decide⟩ (.head ⟨hchild 12 11 rfl, by decide⟩
      (.head ⟨hchild 11 10 rfl, by decide⟩ (.single ⟨hchild 10 9 rfl, by decide⟩)))

theorem root_ok_of_wellFormed_searching :
    searchingTree.WellFormed 17 ∧ NeverEnds SequentialNames.start ∧
      ∃ s', Lower.root searchingTree 17 (.ofNames SequentialNames.start) = .ok () s' := by
  have hnames := SequentialNames.neverEnds .start
  exact ⟨searchingTree_wellFormed, hnames,
    (root_ok_of_wellFormed searchingTree_wellFormed (.ofNames SequentialNames.start)).1 hnames⟩

end BytecodeCompiler.Lower
