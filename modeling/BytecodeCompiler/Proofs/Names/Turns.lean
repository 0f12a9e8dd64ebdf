import BytecodeCompiler.Proofs.Names
import Mathlib.Data.List.Nodup
import Mathlib.Logic.Equiv.Basic

-- Two supplies of names that are drawn from in turn. In each turn one name is drawn from either
-- supply. If no supply repeats a name, then what was drawn from one supply tells what was drawn
-- from the other in the same turn.

namespace BytecodeCompiler.NameSupply

variable {σ τ : Type} [NameSupply σ] [NameSupply τ]

/-- Of two runs of draws from one supply, the shorter one is how the longer one begins. -/
theorem Draws.take_eq {s x y : σ} {is js : List Ident} (h : Draws s is x) (h' : Draws s js y)
    (hle : is.length ≤ js.length) : js.take is.length = is := by
  induction h generalizing js with
  | nothing s => rfl
  | next hfresh _ ih =>
    cases h' with
    | nothing => cases hle
    | next hfresh' hothers =>
      cases hfresh.symm.trans hfresh'
      rw [List.length_cons, List.take_succ_cons, ih hothers (Nat.le_of_succ_le_succ hle)]

/-- In as many turns, the pairs of names were drawn, and these supplies are left. -/
def Turns (a : σ) (b : τ) (pairs : List (Ident × Ident)) (x : σ) (y : τ) : Prop :=
  Draws a (pairs.map Prod.fst) x ∧ Draws b (pairs.map Prod.snd) y

/-- The two names are drawn in the same turn. -/
def SameTurn (a : σ) (b : τ) (l l' : Ident) : Prop :=
  ∃ pairs x y, Turns a b pairs x y ∧ (l, l') ∈ pairs

section Turns

variable {a : σ} {b : τ}

theorem Turns.next {pairs : List (Ident × Ident)} {x x' : σ} {y y' : τ} {l l' : Ident}
    (h : Turns a b pairs x y) (hl : fresh x = some (l, x')) (hl' : fresh y = some (l', y')) :
    Turns a b (pairs ++ [(l, l')]) x' y' := by
  constructor
  · rw [List.map_append]
    exact h.1.append (.one hl)
  · rw [List.map_append]
    exact h.2.append (.one hl')

/-- Whatever is drawn in some turns is drawn in more turns. -/
theorem Turns.subset {pairs pairs' : List (Ident × Ident)} {x x' : σ} {y y' : τ}
    (h : Turns a b pairs x y) (h' : Turns a b pairs' x' y') (hle : pairs.length ≤ pairs'.length) :
    pairs ⊆ pairs' := by
  have hfst := h.1.take_eq h'.1 (by simpa using hle)
  have hsnd := h.2.take_eq h'.2 (by simpa using hle)
  rw [List.length_map, ← List.map_take] at hfst hsnd
  have heq : pairs'.take pairs.length = pairs :=
    (List.zip_of_prod hfst hsnd).trans (List.zip_of_prod rfl rfl).symm
  rw [← heq]
  exact List.take_subset _ _

/-- Two turns are turns of one run. -/
theorem SameTurn.together {l l' m m' : Ident} (hl : SameTurn a b l l') (hm : SameTurn a b m m') :
    ∃ pairs x y, Turns a b pairs x y ∧ (l, l') ∈ pairs ∧ (m, m') ∈ pairs := by
  obtain ⟨pairs, x, y, hturns, hmem⟩ := hl
  obtain ⟨pairs', x', y', hturns', hmem'⟩ := hm
  rcases Nat.le_total pairs.length pairs'.length with hle | hle
  · exact ⟨pairs', x', y', hturns', hturns.subset hturns' hle hmem, hmem'⟩
  · exact ⟨pairs, x, y, hturns, hmem, hturns'.subset hturns hle hmem'⟩

/-- A name is drawn in one turn at most. -/
theorem SameTurn.right_unique (ha : NeverRepeats a) {l m m' : Ident} (h : SameTurn a b l m)
    (h' : SameTurn a b l m') : m = m' := by
  obtain ⟨pairs, x, y, hturns, hmem, hmem'⟩ := h.together h'
  have hpair := List.inj_on_of_nodup_map (ha _ _ hturns.1) hmem hmem' rfl
  exact congrArg Prod.snd hpair

theorem SameTurn.left_unique (hb : NeverRepeats b) {l l' m : Ident} (h : SameTurn a b l m)
    (h' : SameTurn a b l' m) : l = l' := by
  obtain ⟨pairs, x, y, hturns, hmem, hmem'⟩ := h.together h'
  have hpair := List.inj_on_of_nodup_map (hb _ _ hturns.2) hmem hmem' rfl
  exact congrArg Prod.fst hpair

/-- The name that is drawn from the second supply in the turn of a name from the first. -/
noncomputable def partner (a : σ) (b : τ) (l : Ident) : Ident :=
  open Classical in if h : ∃ l', SameTurn a b l l' then h.choose else l

theorem SameTurn.partner_eq (ha : NeverRepeats a) {l l' : Ident} (h : SameTurn a b l l') :
    partner a b l = l' := by
  have hexists : ∃ l', SameTurn a b l l' := ⟨l', h⟩
  rw [partner, dif_pos hexists]
  exact SameTurn.right_unique ha hexists.choose_spec h

/-- Partners of different names are different. -/
theorem partner_injOn (ha : NeverRepeats a) (hb : NeverRepeats b) {l m : Ident}
    (hl : ∃ l', SameTurn a b l l') (hm : ∃ m', SameTurn a b m m')
    (h : partner a b l = partner a b m) : l = m := by
  obtain ⟨l', hl⟩ := hl
  obtain ⟨m', hm⟩ := hm
  rw [hl.partner_eq ha, hm.partner_eq ha] at h
  subst h
  exact SameTurn.left_unique hb hl hm

end Turns

/-- A function that keeps finitely many names apart is on these names a permutation of all names. -/
theorem exists_perm_of_injOn (f : Ident → Ident) (ls : List Ident)
    (hf : ∀ l ∈ ls, ∀ m ∈ ls, f l = f m → l = m) :
    ∃ g : Equiv.Perm Ident, ∀ l ∈ ls, g l = f l := by
  induction ls with
  | nil => exact ⟨Equiv.refl Ident, List.forall_mem_nil _⟩
  | cons l ls ih =>
    obtain ⟨g, hg⟩ := ih fun m hm n hn =>
      hf m (List.mem_cons_of_mem _ hm) n (List.mem_cons_of_mem _ hn)
    -- The new name trades places with the one that goes where it should go.
    refine ⟨g.trans (Equiv.swap (g l) (f l)), List.forall_mem_cons.mpr ⟨?_, fun m hm => ?_⟩⟩
    · exact Equiv.swap_apply_left _ _
    · by_cases hml : m = l
      · subst hml
        exact Equiv.swap_apply_left _ _
      · have hne : g m ≠ g l := fun heq => hml (g.injective heq)
        have hne' : f m ≠ f l := fun heq =>
          hml (hf m (List.mem_cons_of_mem _ hm) l List.mem_cons_self heq)
        rw [Equiv.trans_apply, Equiv.swap_apply_of_ne_of_ne hne (hg m hm ▸ hne'), hg m hm]

end BytecodeCompiler.NameSupply
