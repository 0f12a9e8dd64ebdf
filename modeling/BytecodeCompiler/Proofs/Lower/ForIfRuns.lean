import BytecodeCompiler.Proofs.Lower.ForInRuns
import BytecodeCompiler.Proofs.Lower.Guards

-- A loop with conditions runs its body as long as all of them are true. Its declarations are run
-- once. Each round asks the conditions in order up to the first false one, which leads to the end,
-- and if there is none the body is run once. The body may also break, from any depth.

namespace BytecodeCompiler

/-! ## The code of a loop with conditions -/

/-- The parts of a loop with conditions. -/
inductive ForIfPart where
  | sets
  | top
  | test (i : Nat)
  | body
  | finish
deriving DecidableEq

/-- The code of a loop with conditions, by its parts. -/
structure ForIfCode where
  labels : Lower.LoopLabels
  span : Span
  /-- The code of the declarations. -/
  declared : List Instr
  tests : List Test
  /-- The code of the body. -/
  inside : List Instr

namespace ForIfCode

variable (c : ForIfCode)

/-- The parts of the code, as they stand. The jump back belongs to the body. -/
def parts : Parts ForIfPart :=
  ⟨.sets, c.declared⟩ :: ⟨.top, [.label c.labels.top c.span]⟩ ::
    ((c.tests.mapIdx fun i test => ⟨.test i, test.guarded false c.span c.labels.finish⟩) ++
      [⟨.body, c.inside ++ [.jump c.labels.top c.span]⟩,
        ⟨.finish, [.label c.labels.finish c.span]⟩])

/-- The rows of the block. -/
def rows : List Instr := c.parts.rows

/-- The conditions with where they stand. -/
def placed : List (Nat × Test) := c.tests.mapIdx fun i test => (c.parts.start (.test i), test)

/-- Where the label of the top stands. -/
def topAt : Nat := c.parts.start .top

/-- Where the body starts. -/
def bodyAt : Nat := c.parts.start .body

/-- The code is what the parts of the loop are lowered to. -/
structure LoweredFrom {σ : Type} (t : Tree) (walk : Lower.Walk σ) (sets : Option NodeId)
    (conds : List NodeId) (block : NodeId) : Prop where
  declared : Lower.Appends (Lower.all walk sets.toList) () c.declared
  tests : List.Forall₂ (Test.LoweredFrom t walk) conds c.tests
  inside : ∃ r, Lower.Appends (walk block) r c.inside

/-! ## What happens in a round -/

variable {ω : Type} (host : Host ω)

/-- The body falls through. -/
def BodyFalls (s s' : Store ω) : Prop := host.FallsThrough c.rows c.bodyAt c.inside s s'

/-- The body comes to an instruction that jumps to the end of the loop. That may be a block which is
left by a break somewhere inside. -/
def BodyBreaks (s s' : Store ω) : Prop :=
  ∃ row i s₁, host.RunsIn c.rows c.bodyAt (c.bodyAt + c.inside.length) ⟨c.bodyAt, s⟩ ⟨row, s₁⟩ ∧
    c.bodyAt ≤ row ∧ row < c.bodyAt + c.inside.length ∧ c.rows[row]? = some i ∧
    host.exec i s₁ = some (.jump c.labels.finish s')

/-- All conditions are true and the body falls through. -/
def Completes (s s' : Store ω) : Prop :=
  ∃ s₁, AllYield host c.rows c.placed true c.tests.length s s₁ ∧ c.BodyFalls host s₁ s'

/-- The condition of a number is the first that is false. -/
def Stops (i : Nat) (s s' : Store ω) : Prop :=
  ∃ test s₁, c.tests[i]? = some test ∧ AllYield host c.rows c.placed true i s s₁ ∧
    test.Yields host c.rows (c.parts.start (.test i)) s₁ false s'

/-- All conditions are true and the body breaks. -/
def Breaks (s s' : Store ω) : Prop :=
  ∃ s₁, AllYield host c.rows c.placed true c.tests.length s s₁ ∧ c.BodyBreaks host s₁ s'

/-- A number of complete rounds, one after the other. -/
inductive Rounds : Nat → Store ω → Store ω → Prop where
  | start (s : Store ω) : Rounds 0 s s
  | next {k : Nat} {s s' s'' : Store ω} (before : Rounds k s s')
      (round : c.Completes host s' s'') : Rounds (k + 1) s s''

/-! ## What is logged -/

/-- The declarations, unless there are none. -/
def head : List ForIfPart := if c.declared.isEmpty then [] else [.sets]

/-- A complete round. -/
def round : List ForIfPart := .top :: ((List.range c.tests.length).map .test ++ [.body])

/-- The declarations and a number of complete rounds. -/
def rounds (k : Nat) : List ForIfPart := c.head ++ (List.replicate k c.round).flatten

/-- A round that stops at a condition. -/
def stopped (i : Nat) : List ForIfPart := .top :: (List.range (i + 1)).map .test

/-- The run passes these parts and the label of the end, and goes on behind the block. -/
def Leaves (start : Store ω) (log : List ForIfPart) (final : Store ω) : Prop :=
  c.parts.Passes host c.rows 0 ⟨0, start⟩ (log ++ [.finish]) ⟨c.rows.length, final⟩

theorem count_rounds (k : Nat) : (c.rounds k).count .body = k := by
  have hhead : c.head.count .body = 0 := by
    unfold head
    split <;> rfl
  have htests : ((List.range c.tests.length).map ForIfPart.test).count .body = 0 := by
    rw [List.count_eq_zero]
    simp
  unfold rounds
  induction k with
  | zero => simpa using hhead
  | succ k ih =>
    rw [List.replicate_succ', List.flatten_append, ← List.append_assoc, List.count_append, ih]
    simp [round, htests]

theorem count_stopped (i : Nat) : (stopped i).count .body = 0 := by
  rw [List.count_eq_zero]
  simp [stopped]

/-! ## Where the parts stand -/

theorem nodup_names : c.parts.names.Nodup := by
  have htest : Function.Injective ForIfPart.test := fun _ _ h => ForIfPart.test.inj h
  unfold parts
  rw [Parts.names_cons, Parts.names_cons, Parts.names_append, Parts.names_mapIdx]
  simp [Parts.names, List.nodup_append, List.nodup_range.map htest]

variable {c} {host} {i : Nat} {test : Test}

theorem part_sets : c.parts[0]? = some ⟨.sets, c.declared⟩ := rfl

theorem part_top : c.parts[1]? = some ⟨.top, [.label c.labels.top c.span]⟩ := rfl

theorem part_test (hi : c.tests[i]? = some test) :
    c.parts[2 + i]? = some ⟨.test i, test.guarded false c.span c.labels.finish⟩ := by
  have hlt : i < c.tests.length := (List.getElem?_eq_some_iff.mp hi).1
  unfold parts
  rw [Nat.add_comm 2 i, List.getElem?_cons_succ, List.getElem?_cons_succ,
    List.getElem?_append_left (by simpa using hlt)]
  simp [hi]

theorem part_body : c.parts[2 + c.tests.length]? =
    some ⟨.body, c.inside ++ [.jump c.labels.top c.span]⟩ := by
  unfold parts
  rw [Nat.add_comm, List.getElem?_cons_succ, List.getElem?_cons_succ]
  simp

theorem part_finish : c.parts[3 + c.tests.length]? =
    some ⟨.finish, [.label c.labels.finish c.span]⟩ := by
  unfold parts
  rw [Nat.add_comm, List.getElem?_cons_succ, List.getElem?_cons_succ]
  simp

/-! ## Runs -/

variable {s s' : Store ω} (h : c.parts.Placed c.rows 0)

include h

/-- The declarations are run before the first round. -/
theorem passes_sets (hsets : host.FallsThrough c.rows 0 c.declared s s') :
    c.parts.Passes host c.rows 0 ⟨0, s⟩ c.head ⟨c.parts.offset 1, s'⟩ := by
  unfold head
  cases hdeclared : c.declared with
  | nil =>
    -- Without declarations the first row is the top, and there is no part to pass.
    rw [hdeclared] at hsets
    have hoffset : c.parts.offset 1 = 0 := by simp [Parts.offset, Parts.rows, parts, hdeclared]
    rw [hoffset]
    cases hsets with
    | refl => exact .refl _
    | next hlo hhi _ _ => exact absurd hhi (Nat.not_lt.mpr hlo)
  | cons i is =>
    have hpos : 0 < c.declared.length := by simp [hdeclared]
    have hpasses := h.passes part_sets hpos hsets
    rw [Nat.zero_add, Nat.zero_add] at hpasses
    exact hpasses

/-- A round starts with the label of the top. -/
theorem passes_top (s : Store ω) :
    c.parts.Passes host c.rows 0 ⟨c.parts.offset 1, s⟩ [.top] ⟨c.parts.offset 2, s⟩ := by
  simpa only [Nat.zero_add] using h.passes_label part_top s

/-- As long as no condition is false, each one is asked once, in order. -/
theorem passes_tests {k : Nat} (htests : AllYield host c.rows c.placed true k s s') :
    c.parts.Passes host c.rows 0 ⟨c.parts.offset 2, s⟩ ((List.range k).map .test)
      ⟨c.parts.offset (2 + k), s'⟩ := by
  have hnone : AllYield host c.rows c.placed (!false) k s s' := htests
  have hparts : ∀ i row test, c.placed[i]? = some (row, test) →
      row = 0 + c.parts.offset (2 + i) ∧
      ∃ label, c.parts[2 + i]? = some ⟨.test i, test.guarded false c.span label⟩ := by
    intro i row test hi
    obtain ⟨test', htest, hplace⟩ : ∃ test', c.tests[i]? = some test' ∧
        (c.parts.start (.test i), test') = (row, test) := by
      simpa [placed] using hi
    cases hplace
    rw [Nat.zero_add, Parts.start_eq c.nodup_names (part_test htest)]
    exact ⟨rfl, c.labels.finish, part_test htest⟩
  simpa only [Nat.zero_add] using hnone.passes h hparts

/-- A condition that is false leads to the end. -/
theorem passes_false (hi : c.tests[i]? = some test)
    (hyields : test.Yields host c.rows (c.parts.start (.test i)) s false s') :
    c.parts.Passes host c.rows 0 ⟨c.parts.offset (2 + i), s⟩ [.test i]
      ⟨c.parts.offset (3 + c.tests.length), s'⟩ := by
  have hlt : i < c.tests.length := (List.getElem?_eq_some_iff.mp hi).1
  have htest := part_test hi
  rw [Parts.start_eq c.nodup_names htest, ← Nat.zero_add (c.parts.offset _)] at hyields
  have hjumps := hyields.jumps (Parts.stands_part h.stands htest) (h.findIdx? part_finish)
  simpa only [Nat.zero_add] using
    h.passes_to htest part_finish (by omega) (by simp [Test.length_guarded]) (by simp) hjumps

/-- A body that falls through leads back to the top. -/
theorem passes_body (hbody : c.BodyFalls host s s') :
    c.parts.Passes host c.rows 0 ⟨c.parts.offset (2 + c.tests.length), s⟩ [.body]
      ⟨c.parts.offset 1, s'⟩ := by
  rw [BodyFalls, bodyAt, Parts.start_eq c.nodup_names part_body,
    ← Nat.zero_add (c.parts.offset _)] at hbody
  simpa only [Nat.zero_add] using h.passes_jump part_body part_top (by omega) hbody

/-- A body that breaks leads to the end. -/
theorem passes_break (hbody : c.BodyBreaks host s s') :
    c.parts.Passes host c.rows 0 ⟨c.parts.offset (2 + c.tests.length), s⟩ [.body]
      ⟨c.parts.offset (3 + c.tests.length), s'⟩ := by
  obtain ⟨row, i, s₁, hrun, hlo, hhi, hrow, hexec⟩ := hbody
  have hjump : host.step c.rows ⟨row, s₁⟩ =
      some ⟨0 + c.parts.offset (3 + c.tests.length), s'⟩ :=
    Host.step_jump hrow hexec (h.findIdx? part_finish)
  have hbreaks := hrun.trans (.next hlo hhi hjump (.refl _))
  rw [bodyAt, Parts.start_eq c.nodup_names part_body, ← Nat.zero_add (c.parts.offset (2 + _))]
    at hbreaks
  have hpasses := h.passes_to part_body part_finish (by omega) (by simp) (by simp)
    (hbreaks.widen (Nat.le_refl _) (by simp))
  simpa only [Nat.zero_add] using hpasses

/-- The run goes on behind the label of the end, which is the last row. -/
theorem passes_finish (s : Store ω) :
    c.parts.Passes host c.rows 0 ⟨c.parts.offset (3 + c.tests.length), s⟩ [.finish]
      ⟨c.rows.length, s⟩ := by
  have hlast : 3 + c.tests.length + 1 = c.parts.length := by
    simp [parts]
    omega
  have hpasses : c.parts.Passes host c.rows 0 _ _ _ := h.passes_label part_finish s
  rw [hlast, Parts.offset_length, Nat.zero_add, Nat.zero_add] at hpasses
  exact hpasses

/-- A complete round leads back to the top. -/
theorem Completes.passes (hround : c.Completes host s s') :
    c.parts.Passes host c.rows 0 ⟨c.parts.offset 1, s⟩ c.round ⟨c.parts.offset 1, s'⟩ := by
  obtain ⟨s₁, htests, hbody⟩ := hround
  exact (passes_top h s).trans ((passes_tests h htests).trans (passes_body h hbody))

/-- Complete rounds follow one another. -/
theorem Rounds.passes {k : Nat} (hrounds : c.Rounds host k s s') :
    c.parts.Passes host c.rows 0 ⟨c.parts.offset 1, s⟩ (List.replicate k c.round).flatten
      ⟨c.parts.offset 1, s'⟩ := by
  induction hrounds with
  | start s => exact .refl _
  | next _ hround ih =>
    rw [List.replicate_succ', List.flatten_append, List.flatten_singleton]
    exact ih.trans (hround.passes h)

/-- A round that stops leads to the end. -/
theorem Stops.passes (hstops : c.Stops host i s s') :
    c.parts.Passes host c.rows 0 ⟨c.parts.offset 1, s⟩ (stopped i)
      ⟨c.parts.offset (3 + c.tests.length), s'⟩ := by
  obtain ⟨test, s₁, hi, htests, hfalse⟩ := hstops
  have hpasses := (passes_tests h htests).trans (passes_false h hi hfalse)
  unfold stopped
  rw [List.range_succ, List.map_append]
  exact (passes_top h s).trans hpasses

/-- A round that breaks leads to the end. -/
theorem Breaks.passes (hbreaks : c.Breaks host s s') :
    c.parts.Passes host c.rows 0 ⟨c.parts.offset 1, s⟩ c.round
      ⟨c.parts.offset (3 + c.tests.length), s'⟩ := by
  obtain ⟨s₁, htests, hbody⟩ := hbreaks
  exact (passes_top h s).trans ((passes_tests h htests).trans (passes_break h hbody))

/-- After the declarations and a number of complete rounds the run is at the top. -/
theorem passes_rounds {k : Nat} {start top : Store ω}
    (hsets : host.FallsThrough c.rows 0 c.declared start top) (hrounds : c.Rounds host k top s) :
    c.parts.Passes host c.rows 0 ⟨0, start⟩ (c.rounds k) ⟨c.topAt, s⟩ := by
  rw [topAt, Parts.start_eq c.nodup_names part_top]
  exact (passes_sets h hsets).trans (hrounds.passes h)

theorem leaves_of_stops {start : Store ω} {log : List ForIfPart}
    (htop : c.parts.Passes host c.rows 0 ⟨0, start⟩ log ⟨c.topAt, s⟩)
    (hstops : c.Stops host i s s') : c.Leaves host start (log ++ stopped i) s' := by
  rw [topAt, Parts.start_eq c.nodup_names part_top] at htop
  exact (htop.trans (hstops.passes h)).trans (passes_finish h s')

theorem leaves_of_breaks {start : Store ω} {k : Nat}
    (htop : c.parts.Passes host c.rows 0 ⟨0, start⟩ (c.rounds k) ⟨c.topAt, s⟩)
    (hbreaks : c.Breaks host s s') : c.Leaves host start (c.rounds (k + 1)) s' := by
  rw [topAt, Parts.start_eq c.nodup_names part_top] at htop
  unfold Leaves rounds
  rw [List.replicate_succ', List.flatten_append, List.flatten_singleton, ← List.append_assoc]
  exact (htop.trans (hbreaks.passes h)).trans (passes_finish h s')

omit h

/-- If every condition has some truth and the body always falls through or breaks, each round is
complete, stops or breaks. -/
theorem round_cases (hall : ∀ p ∈ c.placed, ∀ s, ∃ b s', p.2.Yields host c.rows p.1 s b s')
    (hbody : ∀ s, (∃ s', c.BodyFalls host s s') ∨ ∃ s', c.BodyBreaks host s s') (s : Store ω) :
    (∃ s', c.Completes host s s') ∨ (∃ i s', c.Stops host i s s') ∨ ∃ s', c.Breaks host s s' := by
  have hlength : c.placed.length = c.tests.length := by simp [placed]
  rcases AllYield.all_or_first hall true s with ⟨s₁, htrue⟩ | hfirst
  · rw [hlength] at htrue
    rcases hbody s₁ with ⟨s', hfalls⟩ | ⟨s', hbreaks⟩
    · exact .inl ⟨s', s₁, htrue, hfalls⟩
    · exact .inr (.inr ⟨s', s₁, htrue, hbreaks⟩)
  · obtain ⟨i, p, s₁, s₂, hi, htrue, hfalse⟩ := hfirst
    obtain ⟨test, htest, rfl⟩ : ∃ test, c.tests[i]? = some test ∧
        (c.parts.start (.test i), test) = p := by
      simpa [placed] using hi
    exact .inr (.inl ⟨i, s₂, test, s₁, htest, htrue, hfalse⟩)

/-- Then there are as many complete rounds as one likes, or a round before stops or breaks. -/
theorem rounds_or_left (hall : ∀ p ∈ c.placed, ∀ s, ∃ b s', p.2.Yields host c.rows p.1 s b s')
    (hbody : ∀ s, (∃ s', c.BodyFalls host s s') ∨ ∃ s', c.BodyBreaks host s s') (s : Store ω)
    (k : Nat) : (∃ s', c.Rounds host k s s') ∨ ∃ j < k, ∃ s', c.Rounds host j s s' ∧
      ((∃ i final, c.Stops host i s' final) ∨ ∃ final, c.Breaks host s' final) := by
  induction k with
  | zero => exact .inl ⟨s, .start s⟩
  | succ k ih =>
    rcases ih with ⟨s', hrounds⟩ | ⟨j, hj, hleft⟩
    · rcases round_cases hall hbody s' with ⟨s'', hround⟩ | hleft
      · exact .inl ⟨s'', .next hrounds hround⟩
      · exact .inr ⟨k, Nat.lt_succ_self k, s', hrounds, hleft⟩
    · exact .inr ⟨j, Nat.lt_succ_of_lt hj, hleft⟩

end ForIfCode

/-! ## Lowering -/

namespace ForIfCode

variable (c : ForIfCode)

/-- The rows of the block, with the guards in a row. -/
theorem rows_eq : c.rows = c.declared ++ (.label c.labels.top c.span ::
    (c.tests.flatMap (·.guarded false c.span c.labels.finish) ++ (c.inside ++
      [.jump c.labels.top c.span, .label c.labels.finish c.span]))) := by
  have htests : Parts.rows (c.tests.mapIdx fun i test =>
      ⟨ForIfPart.test i, test.guarded false c.span c.labels.finish⟩) = _ := Parts.rows_numbered ..
  unfold rows parts
  rw [Parts.rows_cons, Parts.rows_cons, Parts.rows_append, htests]
  simp [Parts.rows]

/-- The code is a block of its own. -/
theorem placed_parts (hlabels : (Instr.labelNames c.rows).Nodup) : c.parts.Placed c.rows 0 where
  names := c.nodup_names
  labels := hlabels
  stands := ⟨[], [], rfl, (List.append_nil _).symm⟩
  first := by
    intro l hl i hi
    cases hi

end ForIfCode

namespace Lower

variable {σ : Type} [NameSupply σ] {t : Tree} {walk : Walk σ}

/-- A loop with conditions is lowered to one block with these parts. -/
theorem emits_forIf (hwalk : Careful walk) (id : NodeId) (n : Node) (sets : Option NodeId)
    (conds : List NodeId) (block : NodeId) :
    Emits (forIf t walk id n sets conds block) fun made _ =>
      ∃ c : ForIfCode, made = [.block c.rows c.span] ∧ c.LoweredFrom t walk sets conds block := by
  have hnothing : Emits (pure () : Lower σ Unit) fun made _ => made = [] := emits_pure rfl
  have hconds := fun labels : LoopLabels =>
    emits_guards (t := t) hwalk n.span false labels.finish conds
  apply (emits_loop hwalk hnothing (fun _ => hnothing) hconds).weaken
  rintro _ _ ⟨labels, _, declared, _, _, inside, rfl, rfl, hdeclared, rfl, ⟨tests, rfl, htests⟩,
    hinside⟩
  refine ⟨⟨labels, n.span, declared, tests, inside⟩, ?_, hdeclared, htests, hinside⟩
  rw [ForIfCode.rows_eq]
  simp [loopBlock]

theorem emitted_forIf {id : NodeId} {n : Node} {sets : Option NodeId} {conds : List NodeId}
    {block : NodeId} (hn : t.node? id = some n) (hkind : n.kind = .forIf sets conds block)
    {steps : Nat} {s s' : LowerState σ} {r : Option Instr}
    (h : within t (steps + 1) id s = .ok r s') :
    ∃ c : ForIfCode, s'.out.toList = s.out.toList ++ [.block c.rows c.span] ∧
      c.LoweredFrom t (within t steps : Walk σ) sets conds block := by
  have hrule : (within t (steps + 1) id : Lower σ (Option Instr)) =
      statement (forIf t (within t steps) id n sets conds block) := by
    show rule t (within t steps) id = _
    simp only [rule, nodeAt, hn, pure_bind, hkind]
  rw [hrule] at h
  obtain ⟨_, s₁, hloop, hnone⟩ := bind_eq_ok h
  cases hnone
  obtain ⟨_, hout, c, rfl, hc⟩ :=
    emits_forIf (careful_within t steps) id n sets conds block s _ s' hloop
  exact ⟨c, hout, hc⟩

end Lower

/-! ## Whole loops -/

/-- A loop with conditions runs its body as long as all of them are true. The loop is lowered to one
block, with the code of its declarations, its conditions and its body as parts. Let the machine run
this block from its first row, and let the declarations fall through. The conditions may have
another truth in each round. After a number of complete rounds, the run has passed the declarations
once and all conditions and the body once for each round, and it is at the top again. If a condition
is false then, the run passes the conditions up to the first false one and leaves through the label
of the end, with one run of the body for each complete round. If the body breaks, the run leaves in
the same way, and the body was run once more. If every condition has some truth, and the body always
falls through or breaks, there are as many complete rounds as one likes, or the run leaves. -/
theorem forIf_repeats_while_true {σ : Type} [NameSupply σ] {t : Tree} {id : NodeId} {n : Node}
    {sets : Option NodeId} {conds : List NodeId} {body : NodeId} (hn : t.node? id = some n)
    (hkind : n.kind = .forIf sets conds body) {steps : Nat} {s s' : LowerState σ}
    {r : Option Instr} (hnames : NameSupply.NeverRepeats s.names)
    (h : Lower.within t (steps + 1) id s = .ok r s') :
    (∃ c : ForIfCode, s'.out.toList = s.out.toList ++ [.block c.rows c.span] ∧
      c.LoweredFrom t (Lower.within t steps : Lower.Walk σ) sets conds body) ∧
    ∀ c : ForIfCode, s'.out.toList = s.out.toList ++ [.block c.rows c.span] →
      ∀ (ω : Type) (host : Host ω) (start top : Store ω),
        host.FallsThrough c.rows 0 c.declared start top →
        (∀ k s₁, c.Rounds host k top s₁ →
          c.parts.Passes host c.rows 0 ⟨0, start⟩ (c.rounds k) ⟨c.topAt, s₁⟩ ∧
          (∀ i final, c.Stops host i s₁ final →
            c.Leaves host start (c.rounds k ++ ForIfCode.stopped i) final ∧
            (c.rounds k ++ ForIfCode.stopped i).count .body = k) ∧
          ∀ final, c.Breaks host s₁ final →
            c.Leaves host start (c.rounds (k + 1)) final ∧
            (c.rounds (k + 1)).count .body = k + 1) ∧
        ((∀ p ∈ c.placed, ∀ s, ∃ b s', p.2.Yields host c.rows p.1 s b s') →
          (∀ s, (∃ s', c.BodyFalls host s s') ∨ ∃ s', c.BodyBreaks host s s') →
          ∀ k, (∃ s₁, c.Rounds host k top s₁) ∨ ∃ j < k, ∃ s₁, c.Rounds host j top s₁ ∧
            ((∃ i final, c.Stops host i s₁ final) ∨ ∃ final, c.Breaks host s₁ final)) := by
  refine ⟨Lower.emitted_forIf hn hkind h, ?_⟩
  intro c hout ω host start top hsets
  have hlabels : (Instr.labelNames c.rows).Nodup := by
    rw [← (Instr.names_block c.rows c.span).1]
    exact (Lower.careful_within t (steps + 1) id).nodup_labelNames hnames h hout
  have hplaced : c.parts.Placed c.rows 0 := c.placed_parts hlabels
  refine ⟨?_, fun hall hbody => ForIfCode.rounds_or_left hall hbody top⟩
  intro k s₁ hrounds
  have htop := ForIfCode.passes_rounds hplaced hsets hrounds
  refine ⟨htop, ?_, ?_⟩
  · intro i final hstops
    refine ⟨ForIfCode.leaves_of_stops hplaced htop hstops, ?_⟩
    rw [List.count_append, c.count_rounds, ForIfCode.count_stopped, Nat.add_zero]
  · intro final hbreaks
    exact ⟨ForIfCode.leaves_of_breaks hplaced htop hbreaks, c.count_rounds (k + 1)⟩

/-! ## A loop that counts -/

namespace Host

variable {ω : Type}

/-- Run instructions in a row up to the first one that jumps. -/
def execUntil (host : Host ω) : List Instr → Store ω → Option (Outcome ω)
  | [], s => some (.next s)
  | i :: is, s =>
    match host.exec i s with
    | some (.next s) => execUntil host is s
    | outcome => outcome

/-- A host that runs blocks inside the block up to a depth. A jump leaves all of them. -/
def deep : Nat → Host Unit
  | 0 => Host.plain
  | depth + 1 =>
    { Host.plain with
      perform := fun i s =>
        match i with
        | .block is _ => (deep depth).execUntil is s
        | i => Host.plain.perform i s }

end Host

namespace Lower

/-- The loops `for set n = 0, flag, n < 2 { n = n + 1 }` and
`for set n = 0, flag, n < 2 { n = n + 1; { break } }`. -/
def countTree : Tree :=
  ⟨#[node (.ident "flag"), node (.ident "n"), number 2, node (.binary .less 1 2), number 0,
    node (.set false false "n" 4 0), number 1, node (.binary .add 1 6), node (.update 1 7),
    node (.block [8]), node (.forIf (some 5) [0, 3] 9), ⟨.breakLoop, .none, some 12, .empty⟩,
    ⟨.block [11], .none, some 13, .empty⟩, ⟨.block [8, 12], .none, some 14, .empty⟩,
    node (.forIf (some 5) [0, 3] 13)]⟩
where
  node (kind : NodeKind) : Node := ⟨kind, .none, none, ⟨some .any, none, none, none, none⟩⟩
  number (n : Int64) : Node := ⟨.literal, .none, none, ⟨some .int, some (.int n), none, none, none⟩⟩

/-- The code of a loop in `countTree` with more in its body. -/
def countCode (more : List Instr) : ForIfCode :=
  ⟨⟨.name "L0", .name "L1"⟩, .none, [declare "n" (.value (.int 0) .none)],
    [⟨[], .reference (.name "flag") .none, .none⟩,
      ⟨[.binary .less (.reference (.name "n") .none) (.value (.int 2) .none) .none], top, .none⟩],
    [.block ([.binary .add (.reference (.name "n") .none) (.value (.int 1) .none) .none,
      .mov (.reference (.name "n") .none) top .none] ++ more) .none]⟩

/-- The store to start with. -/
def countStart : Store Unit where
  registers _ := .nil
  stack := []
  vars
    | .name "flag" => some (.bool true)
    | _ => none
  world := ()

/-- The stores before the rounds. -/
def countRounds : Nat → Store Unit
  | 0 => countStart.setVariable (.name "n") (.int 0)
  | k + 1 => (countRounds k).setVariable (.name "n") (.int (Int64.ofNat (k + 1)))

/-- In the first two rounds both conditions are true. -/
theorem count_true (more : List Instr) {k : Nat} (hk : k < 2) :
    AllYield (Host.deep 2) (countCode more).rows (countCode more).placed true 2 (countRounds k)
      (countRounds k) := by
  have hcases : k = 0 ∨ k = 1 := by omega
  rcases hcases with rfl | rfl
  · exact .next (.next (.start _) rfl ⟨countRounds 0, .refl _, rfl⟩) rfl
      ⟨(countRounds 0).push (.bool true), .next (Nat.le_refl _) (Nat.lt_succ_self _) rfl (.refl _),
        rfl⟩
  · exact .next (.next (.start _) rfl ⟨countRounds 1, .refl _, rfl⟩) rfl
      ⟨(countRounds 1).push (.bool true), .next (Nat.le_refl _) (Nat.lt_succ_self _) rfl (.refl _),
        rfl⟩

theorem count_completes {k : Nat} (hk : k < 2) :
    (countCode []).Completes (Host.deep 2) (countRounds k) (countRounds (k + 1)) := by
  refine ⟨countRounds k, count_true [] hk, ?_⟩
  have hcases : k = 0 ∨ k = 1 := by omega
  rcases hcases with rfl | rfl
  · exact .next (Nat.le_refl _) (Nat.lt_succ_self _) rfl (.refl _)
  · exact .next (Nat.le_refl _) (Nat.lt_succ_self _) rfl (.refl _)

/-- In the third round the second condition is false. -/
theorem count_stops : (countCode []).Stops (Host.deep 2) 1 (countRounds 2) (countRounds 2) := by
  refine ⟨_, countRounds 2, rfl, .next (.start _) rfl ⟨countRounds 2, .refl _, rfl⟩, ?_⟩
  exact ⟨(countRounds 2).push (.bool false), .next (Nat.le_refl _) (Nat.lt_succ_self _) rfl
    (.refl _), rfl⟩

/-- What stands behind the count in the loop that breaks. -/
def breakInside : List Instr := [.block [.jump (.name "L1") .none] .none]

theorem count_breaks :
    (countCode breakInside).Breaks (Host.deep 2) (countRounds 0) (countRounds 1) :=
  ⟨countRounds 0, count_true breakInside (by decide), _, _, countRounds 0, .refl _, Nat.le_refl _,
    Nat.lt_succ_self _, rfl, rfl⟩

/-- The first loop has two complete rounds and leaves in the third, at its second condition. The
other one leaves in its first round, by the break in a block inside its body. -/
theorem forIf_repeats_while_true_count :
    (∃ s', Lower.node countTree 10 (.ofNames SequentialNames.start) = .ok none s' ∧
      s'.out.toList = [.block (countCode []).rows .none] ∧
      (countCode []).Rounds (Host.deep 2) 2 (countRounds 0) (countRounds 2) ∧
      (countCode []).Leaves (Host.deep 2) countStart
        [.sets, .top, .test 0, .test 1, .body, .top, .test 0, .test 1, .body, .top, .test 0,
          .test 1] (countRounds 2)) ∧
    ∃ s', Lower.node countTree 14 (.ofNames SequentialNames.start) = .ok none s' ∧
      s'.out.toList = [.block (countCode breakInside).rows .none] ∧
      (countCode breakInside).Leaves (Host.deep 2) countStart
        [.sets, .top, .test 0, .test 1, .body] (countRounds 1) := by
  have hsets : ∀ more, (Host.deep 2).FallsThrough (countCode more).rows 0 (countCode more).declared
      countStart (countRounds 0) := fun _ =>
    .next (Nat.le_refl _) (Nat.lt_succ_self _) rfl (.refl _)
  constructor
  · obtain ⟨s', hrun, hout⟩ : ∃ s',
        Lower.node countTree 10 (.ofNames SequentialNames.start) = .ok none s' ∧
        s'.out.toList = [.block (countCode []).rows .none] := ⟨_, rfl, rfl⟩
    have hrounds : (countCode []).Rounds (Host.deep 2) 2 (countRounds 0) (countRounds 2) :=
      .next (.next (.start _) (count_completes (by decide))) (count_completes (by decide))
    obtain ⟨hloop, -⟩ := (forIf_repeats_while_true rfl rfl (SequentialNames.neverRepeats _) hrun).2
      (countCode []) hout Unit (Host.deep 2) countStart _ (hsets [])
    obtain ⟨-, hstops, -⟩ := hloop 2 _ hrounds
    exact ⟨s', hrun, hout, hrounds, (hstops 1 _ count_stops).1⟩
  · obtain ⟨s', hrun, hout⟩ : ∃ s',
        Lower.node countTree 14 (.ofNames SequentialNames.start) = .ok none s' ∧
        s'.out.toList = [.block (countCode breakInside).rows .none] := ⟨_, rfl, rfl⟩
    obtain ⟨hloop, -⟩ := (forIf_repeats_while_true rfl rfl (SequentialNames.neverRepeats _) hrun).2
      (countCode breakInside) hout Unit (Host.deep 2) countStart _ (hsets breakInside)
    obtain ⟨-, -, hbreaks⟩ := hloop 0 _ (.start _)
    exact ⟨s', hrun, hout, (hbreaks _ count_breaks).1⟩

end Lower

end BytecodeCompiler
