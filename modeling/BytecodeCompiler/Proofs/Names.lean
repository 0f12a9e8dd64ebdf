import BytecodeCompiler.Names
import Mathlib.Data.List.Nodup
import Std.Data.String.ToNat

-- Runs of a supply of names, and supplies that never give a name twice.

namespace BytecodeCompiler

namespace NameSupply

variable {σ : Type} [NameSupply σ]

/-- From one supply, the names are drawn one after the other, and the other supply is left. -/
inductive Draws : σ → List Ident → σ → Prop where
  | nothing (s : σ) : Draws s [] s
  | next {s s' s'' : σ} {i : Ident} {is : List Ident} (h : fresh s = some (i, s'))
      (others : Draws s' is s'') : Draws s (i :: is) s''

theorem Draws.append {s s' s'' : σ} {is js : List Ident} (h : Draws s is s')
    (h' : Draws s' js s'') : Draws s (is ++ js) s'' := by
  induction h with
  | nothing s => exact h'
  | next hfresh _ ih => exact .next hfresh (ih h')

theorem Draws.one {s s' : σ} {i : Ident} (h : fresh s = some (i, s')) : Draws s [i] s' :=
  .next h (.nothing s')

/-- However many names are drawn, no two are the same. -/
def NeverRepeats (s : σ) : Prop := ∀ is s', Draws s is s' → is.Nodup

/-- However many names are drawn, there is another one. -/
def NeverEnds (s : σ) : Prop := ∀ is s', Draws s is s' → fresh s' ≠ none

end NameSupply

namespace SequentialNames

open NameSupply

/-- The names come in the order of their numbers. -/
theorem mem_of_draws {s s' : SequentialNames} {is : List Ident} (h : Draws s is s') :
    ∀ i ∈ is, ∃ n, s.next ≤ n ∧ i = .name ("L" ++ toString n) := by
  induction h with
  | nothing s => simp
  | @next s s' s'' i is hfresh _ ih =>
    simp only [fresh, Option.some.injEq, Prod.mk.injEq] at hfresh
    obtain ⟨rfl, rfl⟩ := hfresh
    intro j hj
    rcases List.mem_cons.mp hj with rfl | hj
    · exact ⟨s.next, Nat.le_refl _, rfl⟩
    · obtain ⟨n, hn, rfl⟩ := ih j hj
      exact ⟨n, Nat.le_of_succ_le hn, rfl⟩

theorem neverRepeats (s : SequentialNames) : NeverRepeats s := by
  intro is s' h
  induction h with
  | nothing s => exact List.nodup_nil
  | @next s s' s'' i is hfresh hdraws ih =>
    simp only [fresh, Option.some.injEq, Prod.mk.injEq] at hfresh
    obtain ⟨rfl, rfl⟩ := hfresh
    refine List.nodup_cons.mpr ⟨fun hmem => ?_, ih⟩
    obtain ⟨n, hn, heq⟩ := mem_of_draws hdraws _ hmem
    simp only [Ident.name.injEq, String.append_right_inj] at heq
    have hsame : s.next = n := Nat.repr_injective heq
    exact Nat.not_succ_le_self n (hsame ▸ hn)

theorem neverEnds (s : SequentialNames) : NeverEnds s := by
  intro is s' _ hnone
  cases hnone

end SequentialNames

end BytecodeCompiler
