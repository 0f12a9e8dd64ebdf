import BytecodeCompiler.Names.Hashed
import BytecodeCompiler.Proofs.Names

-- Names from a hash never repeat, whatever the hash is: a name that was given is kept in mind, and
-- the search passes over it.

namespace BytecodeCompiler.HashedNames

open NameSupply

/-- What the search finds was not given before, and it is the only name that is new afterwards. -/
theorem search_eq_some {steps : Nat} {s s' : HashedNames} {i : Ident}
    (h : search steps s = some (i, s')) :
    ∃ name, i = .name name ∧ s.issued.contains name = false ∧
      ∀ other, s'.issued.contains other = (name == other || s.issued.contains other) := by
  induction steps generalizing s with
  | zero => cases h
  | succ steps ih =>
    obtain ⟨digest, counter, issued⟩ := s
    by_cases hgiven : issued.contains (spell (digest counter)) = true
    · simp only [search, hgiven, if_true] at h
      obtain ⟨name, hname, hnew⟩ := ih h
      exact ⟨name, hname, hnew⟩
    · simp only [search, hgiven, Bool.false_eq_true, if_false, Option.some.injEq,
        Prod.mk.injEq] at h
      obtain ⟨rfl, rfl⟩ := h
      exact ⟨_, rfl, Bool.not_eq_true _ ▸ hgiven, fun other => Std.HashSet.contains_insert⟩

/-- A name that was given before is not drawn again. -/
theorem not_mem_of_draws {s s' : HashedNames} {is : List Ident} (h : Draws s is s') {name : String}
    (hname : s.issued.contains name = true) : Ident.name name ∉ is := by
  induction h with
  | nothing s => exact List.not_mem_nil
  | @next s s' s'' i is hfresh _ ih =>
    obtain ⟨new, rfl, hnew, hissued⟩ := search_eq_some hfresh
    rw [List.mem_cons, not_or]
    constructor
    · intro heq
      cases heq
      rw [hname] at hnew
      cases hnew
    · exact ih (by rw [hissued, hname, Bool.or_true])

theorem neverRepeats (s : HashedNames) : NeverRepeats s := by
  intro is s' h
  induction h with
  | nothing s => exact List.nodup_nil
  | @next s s' s'' i is hfresh hdraws ih =>
    obtain ⟨name, rfl, -, hissued⟩ := search_eq_some hfresh
    refine List.nodup_cons.mpr ⟨not_mem_of_draws hdraws ?_, ih⟩
    rw [hissued, beq_self_eq_true, Bool.true_or]

end BytecodeCompiler.HashedNames
