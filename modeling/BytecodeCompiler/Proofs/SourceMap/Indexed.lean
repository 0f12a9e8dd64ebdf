import BytecodeCompiler.Proofs.SourceMap.Recording
import Mathlib.Data.List.Induction
import Std.Data.HashMap

-- Source maps with a table of the places of their sources, which is filled as sources are added or
-- all at once from their list. The table gives what a search through the list gives, so a map
-- answers the same whichever way its table came about.

namespace BytecodeCompiler

theorem lastIndex?_concat (names : List String) (n name : String) :
    lastIndex? name (names ++ [n]) =
      if n = name then some names.length else lastIndex? name names := by
  induction names with
  | nil => simp [lastIndex?]
  | cons first names ih =>
    rw [List.cons_append, lastIndex?, ih]
    by_cases hn : n = name
    · simp [hn]
    · simp [hn, lastIndex?]

/-- A source map with a table of its sources. -/
structure IndexedMap where
  map : SourceMap
  index : Std.HashMap String UInt32

namespace IndexedMap

def empty : IndexedMap := ⟨.empty, ∅⟩

/-- The table of a list of sources. -/
def indexOf (sources : List String) : Std.HashMap String UInt32 :=
  sources.zipIdx.foldl (fun index p => index.insert p.1 (UInt32.ofNat p.2)) ∅

/-- A source map with its table made anew. -/
def ofMap (m : SourceMap) : IndexedMap := ⟨m, indexOf m.sources.toList⟩

/-- The index of a source, from the table. A new source is added to the list and to the table. -/
def source (x : IndexedMap) (name : String) : UInt32 × IndexedMap :=
  match x.index[name]? with
  | some i => (i, x)
  | none =>
    let i := UInt32.ofNat x.map.sources.size
    (i, ⟨⟨x.map.version, x.map.sources.push name, x.map.mappings⟩, x.index.insert name i⟩)

/-- Record an offer, as a source map without a table does. -/
def add (x : IndexedMap) (o : Offer) : Bool × IndexedMap :=
  let at32 := UInt32.ofNat o.offset
  if o.span.isValid && x.map.accepts at32 then
    let (i, x) := x.source o.file
    (true, ⟨x.map.push ⟨at32, i, o.span.line, o.span.col, o.span.colEnd⟩, x.index⟩)
  else (false, x)

/-- The map of all offers. -/
def ofOffers (offers : List Offer) : IndexedMap := offers.foldl (fun x o => (x.add o).2) .empty

/-! ## The table and the list -/

/-- The table gives the places of the sources. -/
def InStep (x : IndexedMap) : Prop :=
  ∀ name, x.index[name]? = (lastIndex? name x.map.sources.toList).map UInt32.ofNat

theorem inStep_empty : empty.InStep := by
  intro name
  simp [empty, SourceMap.empty, lastIndex?]

/-- A table that is made from the list gives the places in the list. -/
theorem inStep_ofMap (m : SourceMap) : (ofMap m).InStep := by
  intro name
  unfold ofMap
  simp only
  induction m.sources.toList using List.reverseRecOn with
  | nil => simp [indexOf, lastIndex?]
  | append_singleton names n ih =>
    have hconcat : indexOf (names ++ [n]) =
        (indexOf names).insert n (UInt32.ofNat names.length) := by
      simp [indexOf, List.zipIdx_append]
    rw [hconcat, Std.HashMap.getElem?_insert, lastIndex?_concat, ih]
    by_cases hn : n = name
    · simp [hn]
    · simp [hn]

theorem InStep.source {x : IndexedMap} (h : x.InStep) (name : String) :
    (x.source name).1 = (x.map.source name).1 ∧ (x.source name).2.map = (x.map.source name).2 ∧
      (x.source name).2.InStep := by
  obtain ⟨⟨version, sources, mappings⟩, index⟩ := x
  have hname : index[name]? = (lastIndex? name sources.toList).map UInt32.ofNat := h name
  cases hlast : lastIndex? name sources.toList with
  | some i =>
    simp only [IndexedMap.source, SourceMap.source, hname, hlast, Option.map_some]
    exact ⟨trivial, trivial, h⟩
  | none =>
    simp only [IndexedMap.source, SourceMap.source, hname, hlast, Option.map_none]
    refine ⟨trivial, trivial, fun other => ?_⟩
    have hother : index[other]? = (lastIndex? other sources.toList).map UInt32.ofNat := h other
    simp only [Std.HashMap.getElem?_insert, Array.toList_push, lastIndex?_concat, hother,
      beq_iff_eq, Array.length_toList]
    by_cases heq : name = other
    · simp [heq]
    · simp [heq]

theorem add_of_accepts {x : IndexedMap} {o : Offer} (hvalid : o.span.isValid = true)
    (haccepts : x.map.accepts (UInt32.ofNat o.offset) = true) :
    x.add o = (true, ⟨(x.source o.file).2.map.push ⟨UInt32.ofNat o.offset, (x.source o.file).1,
      o.span.line, o.span.col, o.span.colEnd⟩, (x.source o.file).2.index⟩) := by
  simp [add, hvalid, haccepts]

theorem add_of_not_accepts {x : IndexedMap} {o : Offer}
    (h : ¬ (o.span.isValid = true ∧ x.map.accepts (UInt32.ofNat o.offset) = true)) :
    x.add o = (false, x) := by
  simpa [add] using h

/-- A table that is in step changes nothing, and it stays in step. -/
theorem InStep.add {x : IndexedMap} (h : x.InStep) (o : Offer) :
    (x.add o).1 = (x.map.add o.offset o.span o.file).1 ∧ (x.add o).2.map = x.map.offer o ∧
      (x.add o).2.InStep := by
  obtain ⟨hindex, hmap, hstep⟩ := h.source o.file
  unfold SourceMap.offer
  by_cases haccepts : o.span.isValid = true ∧ x.map.accepts (UInt32.ofNat o.offset) = true
  · rw [SourceMap.add_of_accepts _ haccepts.1 haccepts.2, add_of_accepts haccepts.1 haccepts.2,
      ← hindex, ← hmap]
    exact ⟨rfl, rfl, hstep⟩
  · rw [SourceMap.add_of_not_accepts _ haccepts, add_of_not_accepts haccepts]
    exact ⟨rfl, rfl, h⟩

theorem inStep_ofOffers (offers : List Offer) :
    (ofOffers offers).map = SourceMap.ofOffers offers ∧ (ofOffers offers).InStep := by
  have hfold : ∀ {x : IndexedMap}, x.InStep →
      (offers.foldl (fun x o => (x.add o).2) x).map = offers.foldl SourceMap.offer x.map ∧
        (offers.foldl (fun x o => (x.add o).2) x).InStep := by
    induction offers with
    | nil => exact fun h => ⟨rfl, h⟩
    | cons o offers ih =>
      intro x h
      obtain ⟨-, hmap, hstep⟩ := h.add o
      have hrest := ih hstep
      rwa [hmap] at hrest
  exact hfold inStep_empty

end IndexedMap

/-! ## Calls -/

/-- What can be asked of a source map. -/
inductive MapCall where
  | add (o : Offer)
  | get (offset : Nat)
  | lookup (offset : Nat)
deriving DecidableEq, Inhabited

inductive MapAnswer where
  | added (yes : Bool)
  | entry (e : Option Mapping)
deriving DecidableEq, Inhabited

/-- The answers to calls, each after the ones before it. -/
def SourceMap.answers (m : SourceMap) : List MapCall → List MapAnswer
  | [] => []
  | .add o :: calls => .added (m.add o.offset o.span o.file).1 :: (m.offer o).answers calls
  | .get offset :: calls => .entry (m.get? offset) :: m.answers calls
  | .lookup offset :: calls => .entry (m.lookup? offset) :: m.answers calls

namespace IndexedMap

def answers (x : IndexedMap) : List MapCall → List MapAnswer
  | [] => []
  | .add o :: calls => .added (x.add o).1 :: (x.add o).2.answers calls
  | .get offset :: calls => .entry (x.map.get? offset) :: x.answers calls
  | .lookup offset :: calls => .entry (x.map.lookup? offset) :: x.answers calls

/-- With a table that is in step, the answers are those of the map. -/
theorem InStep.answers {x : IndexedMap} (h : x.InStep) (calls : List MapCall) :
    x.answers calls = x.map.answers calls := by
  induction calls generalizing x with
  | nil => rfl
  | cons call calls ih =>
    cases call with
    | add o =>
      obtain ⟨hadded, hmap, hstep⟩ := h.add o
      rw [IndexedMap.answers, SourceMap.answers, hadded, ih hstep, hmap]
    | get offset => rw [IndexedMap.answers, SourceMap.answers, ih h]
    | lookup offset => rw [IndexedMap.answers, SourceMap.answers, ih h]

end IndexedMap

end BytecodeCompiler
