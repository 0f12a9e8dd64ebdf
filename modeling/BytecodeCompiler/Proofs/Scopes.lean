import BytecodeCompiler.Scopes

-- What scopes know after a declaration: the names they knew before, and the new one.

namespace BytecodeCompiler

namespace Scope

/-- A scope has one symbol for a name, so what is found is the symbol that is there. -/
theorem find?_eq_some_iff {scope : Scope} {name : String} {symbol : Symbol} :
    scope.find? name = some symbol ↔ symbol ∈ scope ∧ symbol.name = name := by
  obtain ⟨symbols, hdistinct⟩ := scope
  change symbols.find? (·.name == name) = some symbol ↔ symbol ∈ symbols ∧ symbol.name = name
  induction symbols with
  | nil => simp
  | cons first others ih =>
    obtain ⟨hfirst, hothers⟩ := List.pairwise_cons.mp hdistinct
    by_cases hname : first.name = name
    · rw [List.find?_cons_of_pos (by simpa using hname), List.mem_cons]
      constructor
      · rintro ⟨rfl⟩
        exact ⟨.inl rfl, hname⟩
      · rintro ⟨rfl | hmem, hsymbol⟩
        · rfl
        · exact absurd (hname.trans hsymbol.symm) (hfirst symbol hmem)
    · rw [List.find?_cons_of_neg (by simpa using hname), ih hothers, List.mem_cons]
      refine and_congr_left fun hsymbol => ⟨.inr, fun hmem => hmem.resolve_left ?_⟩
      rintro rfl
      exact hname hsymbol

theorem find?_eq_none_iff {scope : Scope} {name : String} :
    scope.find? name = none ↔ ∀ symbol ∈ scope, symbol.name ≠ name := by
  simp [find?, Membership.mem]

theorem contains_iff {scope : Scope} {name : String} :
    scope.contains name = true ↔ ∃ symbol ∈ scope, symbol.name = name := by
  rw [contains, Option.isSome_iff_exists]
  exact exists_congr fun _ => find?_eq_some_iff

/-- A symbol that is put into a scope hides only symbols of its own name. -/
theorem find?_insert (scope : Scope) (symbol : Symbol) (name : String) :
    (scope.insert symbol).find? name =
      if symbol.name = name then some symbol else scope.find? name := by
  unfold insert find?
  by_cases h : symbol.name = name
  · simp [h]
  · rw [if_neg h, List.find?_cons_of_neg (by simpa using h), List.find?_filter]
    congr 1
    funext other
    by_cases hother : other.name = name
    · simp [hother, Ne.symm h]
    · simp [hother]

theorem contains_insert (scope : Scope) (symbol : Symbol) (name : String) :
    (scope.insert symbol).contains name = true ↔
      symbol.name = name ∨ scope.contains name = true := by
  unfold contains
  rw [find?_insert]
  by_cases h : symbol.name = name
  · simp [h]
  · simp [h]

theorem symbols_insert_of_not_contains {scope : Scope} {symbol : Symbol}
    (h : scope.contains symbol.name = false) :
    (scope.insert symbol).symbols = symbol :: scope.symbols := by
  have hnew : ∀ other ∈ scope.symbols, (other.name != symbol.name) = true := by
    simpa [contains, find?] using h
  exact congrArg (symbol :: ·) (List.filter_eq_self.mpr hnew)

end Scope

namespace Scopes

theorem innermost_setInnermost (s : Scopes) (scope : Scope) :
    (s.setInnermost scope).innermost = scope := by
  unfold setInnermost innermost
  cases s.inner <;> rfl

theorem declare_of_isLocal {s : Scopes} {symbol : Symbol} (h : s.isLocal symbol.name = true) :
    s.declare symbol = (false, s) := by
  simp [declare, h]

/-- A name that is new to the innermost scope is declared there, and it is the only one. -/
theorem declare_of_not_isLocal {s : Scopes} {symbol : Symbol}
    (h : ¬ s.isLocal symbol.name = true) :
    ∃ s', s.declare symbol = (true, s') ∧
      ∀ name, s'.isLocal name = true ↔ symbol.name = name ∨ s.isLocal name = true := by
  refine ⟨s.setInnermost (s.innermost.insert symbol), by simp [declare, h], fun name => ?_⟩
  unfold isLocal
  rw [innermost_setInnermost, Scope.contains_insert]

/-- A check starts with the built-ins and nothing else. -/
theorem isLocal_withBuiltins (name : String) :
    withBuiltins.isLocal name = true ↔ name ∈ builtinNames := by
  have hfold : ∀ (names : List String) (scope : Scope),
      (names.foldl (fun scope name => scope.insert (builtin name)) scope).contains name = true ↔
        name ∈ names ∨ scope.contains name = true := by
    intro names
    induction names with
    | nil => simp
    | cons first names ih =>
      intro scope
      rw [List.foldl_cons, ih, Scope.contains_insert, List.mem_cons, @eq_comm _ name first]
      simp only [builtin, or_left_comm, or_assoc]
  have hempty : Scope.empty.contains name = true ↔ False := by
    simp [Scope.empty, Scope.contains, Scope.find?]
  unfold withBuiltins importBuiltins isLocal innermost empty
  rw [hfold, hempty, or_false]

end Scopes

end BytecodeCompiler
