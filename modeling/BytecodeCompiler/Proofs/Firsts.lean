import Mathlib.Data.List.Induction
import Mathlib.Data.List.Nodup
import Mathlib.Data.List.Perm.Subperm

-- The entries of a list that come first with their keys, in the order in which they come. What is
-- recorded once for each key, and never changed later, is recorded for these.

namespace BytecodeCompiler

/-! ## The first of each key -/

section Firsts

variable {α β : Type} [DecidableEq β] (key : α → β)

/-- The entries that come first with their keys. -/
def firstsBy (as : List α) : List α :=
  as.foldl (fun kept a => if key a ∈ kept.map key then kept else kept ++ [a]) []

theorem firstsBy_concat (as : List α) (a : α) :
    firstsBy key (as ++ [a]) =
      if key a ∈ (firstsBy key as).map key then firstsBy key as else firstsBy key as ++ [a] := by
  rw [firstsBy, List.foldl_append]
  rfl

theorem firstsBy_sublist (as : List α) : (firstsBy key as).Sublist as := by
  induction as using List.reverseRecOn with
  | nil => exact List.Sublist.refl _
  | append_singleton as a ih =>
    rw [firstsBy_concat]
    split
    · exact ih.trans (List.sublist_append_left _ _)
    · exact ih.append (List.Sublist.refl _)

/-- What comes later does not change what was first before. -/
theorem firstsBy_prefix (as bs : List α) : firstsBy key as <+: firstsBy key (as ++ bs) := by
  induction bs using List.reverseRecOn with
  | nil => simp
  | append_singleton bs b ih =>
    rw [← List.append_assoc, firstsBy_concat]
    split
    · exact ih
    · exact ih.trans (List.prefix_append _ _)

theorem nodup_map_firstsBy (as : List α) : ((firstsBy key as).map key).Nodup := by
  induction as using List.reverseRecOn with
  | nil => exact List.nodup_nil
  | append_singleton as a ih =>
    rw [firstsBy_concat]
    split
    · exact ih
    · rename_i hnew
      rw [List.map_append, List.map_singleton, ← List.concat_eq_append]
      exact ih.concat hnew

end Firsts

/-! ## Entries without repetition -/

section Distinct

variable {α : Type} [DecidableEq α] {as : List α}

theorem mem_firstsBy_id {a : α} : a ∈ firstsBy id as ↔ a ∈ as := by
  induction as using List.reverseRecOn with
  | nil => rfl
  | append_singleton as b ih =>
    rw [firstsBy_concat, List.map_id, id_eq, List.mem_append, List.mem_singleton]
    split
    · rename_i hb
      rw [← ih]
      constructor
      · exact Or.inl
      · rintro (ha | rfl)
        · exact ha
        · exact hb
    · rw [List.mem_append, List.mem_singleton, ih]

theorem nodup_firstsBy_id (as : List α) : (firstsBy id as).Nodup := by
  simpa using nodup_map_firstsBy id as

theorem firstsBy_id_of_nodup (h : as.Nodup) : firstsBy id as = as := by
  induction as using List.reverseRecOn with
  | nil => rfl
  | append_singleton as a ih =>
    obtain ⟨has, -, hnew⟩ := List.nodup_append.mp h
    rw [firstsBy_concat, ih has, List.map_id, id_eq, if_neg]
    intro ha
    exact hnew a ha a List.mem_cons_self rfl

/-- Entries that were there before add nothing. -/
theorem firstsBy_id_append_of_subset {bs : List α} (h : bs ⊆ as) :
    firstsBy id (as ++ bs) = firstsBy id as := by
  induction bs using List.reverseRecOn with
  | nil => rw [List.append_nil]
  | append_singleton bs b ih =>
    have hold : firstsBy id (as ++ bs) = firstsBy id as := ih fun a ha => h (by simp [ha])
    have hb : b ∈ as := h (by simp)
    rw [← List.append_assoc, firstsBy_concat, hold, List.map_id, id_eq,
      if_pos (mem_firstsBy_id.mpr hb)]

omit [DecidableEq α] in
/-- Different numbers below a bound are no more than the bound. -/
theorem length_le_of_nodup_map {key : α → Nat} (h : (as.map key).Nodup) {bound : Nat}
    (hbound : ∀ a ∈ as, key a < bound) : as.length ≤ bound := by
  have hrange : as.map key ⊆ List.range bound := by
    intro k hk
    obtain ⟨a, ha, rfl⟩ := List.mem_map.mp hk
    exact List.mem_range.mpr (hbound a ha)
  have hle := (List.subperm_of_subset h hrange).length_le
  rwa [List.length_map, List.length_range] at hle

/-- An entry keeps its place among the different ones just as long as none was repeated. -/
theorem getElem?_firstsBy_id_iff {a : α} {i : Nat} (h : as[i]? = some a) :
    (firstsBy id as)[i]? = some a ↔ (as.take (i + 1)).Nodup := by
  obtain ⟨hlt, -⟩ := List.getElem?_eq_some_iff.mp h
  obtain ⟨others, hothers⟩ : firstsBy id (as.take (i + 1)) <+: firstsBy id as := by
    have hprefix := firstsBy_prefix id (as.take (i + 1)) (as.drop (i + 1))
    rwa [List.take_append_drop] at hprefix
  have hfront : (as.take (i + 1))[i]? = some a := by simp [h]
  have hlength : (as.take (i + 1)).length = i + 1 := by simp; omega
  constructor
  · intro hfirst
    -- What stands among the first different ones stands nowhere else, so there are `i + 1` of them.
    have hmem : a ∈ firstsBy id (as.take (i + 1)) :=
      mem_firstsBy_id.mpr (List.mem_of_getElem? hfront)
    obtain ⟨j, hj⟩ := List.mem_iff_getElem?.mp hmem
    obtain ⟨hjlt, -⟩ := List.getElem?_eq_some_iff.mp hj
    have hj' : (firstsBy id as)[j]? = some a := by
      rw [← hothers, List.getElem?_append_left hjlt, hj]
    have hij : i = j := by
      obtain ⟨hi, hia⟩ := List.getElem?_eq_some_iff.mp hfirst
      obtain ⟨hj, hja⟩ := List.getElem?_eq_some_iff.mp hj'
      exact (nodup_firstsBy_id as).getElem_inj_iff.mp (hia.trans hja.symm)
    have hsame : firstsBy id (as.take (i + 1)) = as.take (i + 1) :=
      (firstsBy_sublist id _).eq_of_length_le (by omega)
    rw [← hsame]
    exact nodup_firstsBy_id _
  · intro hnodup
    rw [firstsBy_id_of_nodup hnodup] at hothers
    rw [← hothers, List.getElem?_append_left (by omega), hfront]

end Distinct

end BytecodeCompiler
