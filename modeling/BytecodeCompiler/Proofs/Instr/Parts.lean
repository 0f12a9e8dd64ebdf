import BytecodeCompiler.Proofs.Instr.Execution

-- Code that falls into parts, one behind the other, each with a name. What a run does is told by
-- the parts that it passes: a part is logged when the run leaves it. The code may stand anywhere
-- in a block.

namespace BytecodeCompiler

theorem flatMap_zipIdx {α β : Type} (l : List α) (f : α → List β) :
    l.zipIdx.flatMap (fun p => f p.1) = l.flatMap f := by
  have hfst : l.zipIdx.map Prod.fst = l := List.zipIdx_map_fst 0 l
  calc l.zipIdx.flatMap (fun p => f p.1) = (l.zipIdx.map Prod.fst).flatMap f := by
        rw [List.flatMap_map]
    _ = l.flatMap f := by rw [hfst]

/-- Rows with a name. -/
structure Part (ν : Type) where
  name : ν
  rows : List Instr

/-- Code that falls into parts. -/
abbrev Parts (ν : Type) := List (Part ν)

namespace Parts

variable {ν ω : Type}

/-- The rows of the code. -/
def rows (ps : Parts ν) : List Instr := ps.flatMap Part.rows

/-- The names of the parts. -/
def names (ps : Parts ν) : List ν := ps.map Part.name

/-- Where the part of a number starts, counted from the first row of the code. -/
def offset (ps : Parts ν) (i : Nat) : Nat := (rows (ps.take i)).length

/-- The part that holds a row of the block, if the code starts at the position. -/
def at? : Parts ν → (pos row : Nat) → Option ν
  | [], _, _ => none
  | p :: ps, pos, row =>
    if pos ≤ row ∧ row < pos + p.rows.length then some p.name
    else at? ps (pos + p.rows.length) row

/-! ## Where the parts stand -/

variable {ps : Parts ν} {p : Part ν} {i pos row : Nat} {block : List Instr}

theorem rows_append (ps qs : Parts ν) : rows (ps ++ qs) = rows ps ++ rows qs :=
  List.flatMap_append

theorem rows_cons (p : Part ν) (ps : Parts ν) : rows (p :: ps) = p.rows ++ rows ps := rfl

theorem names_append (ps qs : Parts ν) : names (ps ++ qs) = names ps ++ names qs :=
  List.map_append

theorem names_cons (p : Part ν) (ps : Parts ν) : names (p :: ps) = p.name :: names ps := rfl

/-- Parts that are numbered have numbered names. -/
theorem names_mapIdx {α : Type} (l : List α) (name : Nat → ν) (f : Nat → α → List Instr) :
    names (l.mapIdx fun i a => ⟨name i, f i a⟩) = (List.range l.length).map name := by
  apply List.ext_getElem?
  intro i
  by_cases hi : i < l.length
  · simp [names, hi]
  · simp [names, hi]

theorem rows_mapIdx {α : Type} (l : List α) (name : Nat → ν) (f : Nat → α → List Instr) :
    rows (l.mapIdx fun i a => ⟨name i, f i a⟩) = l.zipIdx.flatMap fun p => f p.2 p.1 := by
  unfold rows
  rw [List.mapIdx_eq_zipIdx_map, List.flatMap_map]

/-- If the rows of a part do not depend on its number, the numbers do not matter. -/
theorem rows_numbered {α : Type} (l : List α) (name : Nat → ν) (f : α → List Instr) :
    rows (l.mapIdx fun i a => ⟨name i, f a⟩) = l.flatMap f :=
  (rows_mapIdx l name fun _ => f).trans (flatMap_zipIdx l f)

theorem offset_length (ps : Parts ν) : ps.offset ps.length = ps.rows.length := by
  unfold offset
  rw [List.take_length]

theorem offset_succ (hi : ps[i]? = some p) : ps.offset (i + 1) = ps.offset i + p.rows.length := by
  unfold offset
  rw [List.take_add_one, hi, rows_append, List.length_append]
  simp [rows]

theorem offset_cons (p : Part ν) (ps : Parts ν) (i : Nat) :
    offset (p :: ps) (i + 1) = p.rows.length + ps.offset i := by
  simp [offset, rows]

theorem offset_le (ps : Parts ν) (i : Nat) : ps.offset i ≤ ps.rows.length := by
  have hall : ps.rows = rows (ps.take i) ++ rows (ps.drop i) := by
    rw [← rows_append, List.take_append_drop]
  rw [hall, List.length_append]
  exact Nat.le_add_right ..

theorem offset_mono (ps : Parts ν) {i j : Nat} (h : i ≤ j) : ps.offset i ≤ ps.offset j := by
  have hle := offset_le (ps.take j) i
  unfold offset at hle ⊢
  rwa [List.take_take, Nat.min_eq_left h] at hle

/-- No part starts inside another one. -/
theorem not_inside_of_ne {i j : Nat} (hj : ps[j]? = some p) (hrows : 0 < p.rows.length)
    (h : i ≠ j) : ¬ (ps.offset i ≤ ps.offset j ∧ ps.offset j < ps.offset (i + 1)) := by
  have hnext := offset_succ hj
  rcases Nat.lt_or_gt_of_ne h with hlt | hgt
  · have hle : ps.offset (i + 1) ≤ ps.offset j := ps.offset_mono hlt
    omega
  · have hle : ps.offset (j + 1) ≤ ps.offset i := ps.offset_mono hgt
    omega

theorem stands_part (h : Stands block pos ps.rows) (hi : ps[i]? = some p) :
    Stands block (pos + ps.offset i) p.rows := by
  obtain ⟨hlt, rfl⟩ := List.getElem?_eq_some_iff.mp hi
  have hsplit : ps.take i ++ ps[i] :: ps.drop (i + 1) = ps := by
    rw [← List.drop_eq_getElem_cons hlt, List.take_append_drop]
  rw [← hsplit, rows_append] at h
  exact h.right.left

theorem mem_names_of_at? {name : ν} (h : ps.at? pos row = some name) : name ∈ ps.names := by
  induction ps generalizing pos with
  | nil => cases h
  | cons q ps ih =>
    unfold at? at h
    split at h
    · cases h
      exact List.mem_cons_self
    · exact List.mem_cons_of_mem _ (ih h)

/-- A row is held by a part if it stands between the start and the end of the part. -/
theorem at?_eq_some_iff (hnames : ps.names.Nodup) (hi : ps[i]? = some p) :
    ps.at? pos row = some p.name ↔
      pos + ps.offset i ≤ row ∧ row < pos + ps.offset i + p.rows.length := by
  induction ps generalizing i pos with
  | nil => cases hi
  | cons q ps ih =>
    obtain ⟨hnew, hnames⟩ := List.nodup_cons.mp hnames
    unfold at?
    rcases i with _ | i
    · obtain rfl : q = p := by simpa using hi
      have hzero : offset (q :: ps) 0 = 0 := rfl
      rw [hzero, Nat.add_zero]
      by_cases hin : pos ≤ row ∧ row < pos + q.rows.length
      · rw [if_pos hin]
        exact ⟨fun _ => hin, fun _ => rfl⟩
      · rw [if_neg hin]
        exact ⟨fun h => absurd (mem_names_of_at? h) hnew, fun h => absurd h hin⟩
    · have hp : ps[i]? = some p := by simpa using hi
      rw [offset_cons]
      by_cases hin : pos ≤ row ∧ row < pos + q.rows.length
      · rw [if_pos hin]
        constructor
        · intro h
          have hmem : p.name ∈ names ps := List.mem_map_of_mem (List.mem_of_getElem? hp)
          rw [← Option.some.inj h] at hmem
          exact absurd hmem hnew
        · intro h
          omega
      · rw [if_neg hin, ih hnames hp]
        omega

section Named

variable [DecidableEq ν]

/-- Where the part of a name starts, counted from the first row of the code. -/
def start (ps : Parts ν) (name : ν) : Nat := ps.offset (ps.names.idxOf name)

theorem start_eq (hnames : ps.names.Nodup) (hi : ps[i]? = some p) :
    ps.start p.name = ps.offset i := by
  obtain ⟨hlt, rfl⟩ := List.getElem?_eq_some_iff.mp hi
  have hlt' : i < ps.names.length := by simpa [names] using hlt
  have hget : ps[i].name = ps.names[i] := by simp [names]
  have hidx : ps.names.idxOf ps[i].name = i := by
    rw [hget]
    exact hnames.idxOf_getElem i hlt'
  rw [start, hidx]

/-! ## Runs through parts -/

/-- What is logged at a step: the part that it leaves. -/
def visits (ps : Parts ν) (pos : Nat) (before after : Config ω) : List ν :=
  if ps.at? pos before.row = ps.at? pos after.row then [] else (ps.at? pos before.row).toList

/-- A run inside the code, and the parts that it leaves. Every run that comes to an end goes this
way. -/
structure Passes (ps : Parts ν) (host : Host ω) (block : List Instr) (pos : Nat)
    (before : Config ω) (log : List ν) (after : Config ω) : Prop where
  runs : host.Runs block (ps.visits pos) before log after
  inside : host.RunsIn block pos (pos + ps.rows.length) before after
  only : ∀ {log' last}, host.Runs block (ps.visits pos) before log' last →
    host.step block last = none →
    ∃ rest, log' = log ++ rest ∧ host.Runs block (ps.visits pos) after rest last

namespace Passes

variable {host : Host ω} {c d e : Config ω} {log log' : List ν}

theorem of_runs (hruns : host.Runs block (ps.visits pos) c log d)
    (hinside : host.RunsIn block pos (pos + ps.rows.length) c d) :
    ps.Passes host block pos c log d :=
  ⟨hruns, hinside, fun h' hend => hruns.goes_on h' hend⟩

theorem refl (c : Config ω) : ps.Passes host block pos c [] c := of_runs (.refl c) (.refl c)

theorem trans (h : ps.Passes host block pos c log d) (h' : ps.Passes host block pos d log' e) :
    ps.Passes host block pos c (log ++ log') e :=
  of_runs (h.runs.trans h'.runs) (h.inside.trans h'.inside)

/-- A run from the first row of a part to a row outside leaves the part. -/
theorem part {s : Store ω} (hnames : ps.names.Nodup) (hi : ps[i]? = some p)
    (hrows : 0 < p.rows.length)
    (hrun : host.RunsIn block (pos + ps.offset i) (pos + ps.offset i + p.rows.length)
      ⟨pos + ps.offset i, s⟩ d)
    (hd : ¬ (pos + ps.offset i ≤ d.row ∧ d.row < pos + ps.offset i + p.rows.length)) :
    ps.Passes host block pos ⟨pos + ps.offset i, s⟩ [p.name] d := by
  have hheld : ∀ c : Config ω, pos + ps.offset i ≤ c.row →
      c.row < pos + ps.offset i + p.rows.length → ps.at? pos c.row = some p.name :=
    fun c hlo hhi => (at?_eq_some_iff hnames hi).mpr ⟨hlo, hhi⟩
  have hleft : ps.at? pos d.row ≠ some p.name := fun h => hd ((at?_eq_some_iff hnames hi).mp h)
  apply of_runs
  · apply hrun.runs_out (Nat.le_refl _) (Nat.lt_add_of_pos_right hrows) hd
    · intro c d hlo hhi hlo' hhi'
      rw [visits, hheld c hlo hhi, hheld d hlo' hhi', if_pos rfl]
    · intro c hlo hhi
      rw [visits, hheld c hlo hhi, if_neg (Ne.symm hleft)]
      rfl
  · have hnext := offset_succ hi
    have hle := ps.offset_le (i + 1)
    apply hrun.widen <;> omega

end Passes

end Named

end Parts

/-- The instructions are run from the first one on, and the run comes out behind the last one. -/
def Host.FallsThrough {ω : Type} (host : Host ω) (block : List Instr) (pos : Nat)
    (is : List Instr) (s s' : Store ω) : Prop :=
  host.RunsIn block pos (pos + is.length) ⟨pos, s⟩ ⟨pos + is.length, s'⟩

end BytecodeCompiler
