import BytecodeCompiler.Proofs.SourceMap.Indexed

-- What a source map answers. Its entries are in the order of their offsets, so a search by halves
-- finds the place where an offset belongs. The entry at the offset stands at that place, and the
-- last entry at or before the offset stands just before the first one after it.

namespace BytecodeCompiler

/-! ## Search by halves -/

/-- Where the numbers that pass a test come before those that fail, the search ends at the first
one that fails. -/
theorem partitionPoint_spec {test : Nat → Bool} {lo hi : Nat} (hle : lo ≤ hi)
    (htest : ∀ i j, lo ≤ i → i ≤ j → j < hi → test j = true → test i = true) :
    lo ≤ partitionPoint test lo hi ∧ partitionPoint test lo hi ≤ hi ∧
      ∀ i, lo ≤ i → i < hi → (i < partitionPoint test lo hi ↔ test i = true) := by
  fun_induction partitionPoint test lo hi with
  | case1 lo hi hlt mid hpass ih =>
    obtain ⟨hlower, hupper, hsearch⟩ :=
      ih (by omega) fun i j hfrom hij hto => htest i j (by omega) hij hto
    refine ⟨by omega, hupper, fun i hfrom hto => ?_⟩
    by_cases hleft : i ≤ mid
    · exact iff_of_true (by omega) (htest i mid hfrom hleft (by omega) hpass)
    · exact hsearch i (by omega) hto
  | case2 lo hi hlt mid hfail ih =>
    obtain ⟨hlower, hupper, hsearch⟩ :=
      ih (by omega) fun i j hfrom hij hto => htest i j hfrom hij (by omega)
    refine ⟨hlower, by omega, fun i hfrom hto => ?_⟩
    by_cases hleft : i < mid
    · exact hsearch i hfrom hleft
    · have hmid := mt (htest mid i (by omega) (by omega) hto) hfail
      exact iff_of_false (by omega) hmid
  | case3 lo hi hdone => exact ⟨Nat.le_refl _, hle, fun i hfrom hto => by omega⟩

namespace SourceMap

/-! ## Entries in order -/

/-- The offsets of the entries go up. -/
def Increasing (m : SourceMap) : Prop :=
  m.mappings.toList.Pairwise fun e e' => e.offset.toNat < e'.offset.toNat

theorem Holds.map_increasing {m : SourceMap} {kept : List Offer} (h : m.Holds kept) :
    m.Increasing := by
  refine List.pairwise_map.mp ?_
  rw [h.offsets]
  exact List.pairwise_map.mpr h.increasing

theorem offsetAt_eq {m : SourceMap} {i : Nat} {e : Mapping} (h : m.mappings[i]? = some e) :
    m.offsetAt i = e.offset := by
  unfold offsetAt
  rw [h]

theorem mem_mappings_iff {m : SourceMap} {e : Mapping} :
    e ∈ m.mappings.toList ↔ ∃ i : Nat, m.mappings[i]? = some e := by
  rw [List.mem_iff_getElem?]
  simp only [Array.getElem?_toList]

theorem exists_entry {m : SourceMap} {i : Nat} (h : i < m.size) :
    ∃ e, m.mappings[i]? = some e := ⟨_, Array.getElem?_eq_getElem h⟩

section Queries

variable {m : SourceMap} (h : m.Increasing)

include h

theorem Increasing.lt_iff {i j : Nat} {e e' : Mapping} (he : m.mappings[i]? = some e)
    (he' : m.mappings[j]? = some e') : e.offset.toNat < e'.offset.toNat ↔ i < j := by
  have hlt : ∀ {i j : Nat} {e e' : Mapping}, m.mappings[i]? = some e → m.mappings[j]? = some e' →
      i < j → e.offset.toNat < e'.offset.toNat := by
    intro i j e e' he he' hij
    obtain ⟨hi, rfl⟩ := Array.getElem?_eq_some_iff.mp he
    obtain ⟨hj, rfl⟩ := Array.getElem?_eq_some_iff.mp he'
    exact List.pairwise_iff_getElem.mp h i j hi hj hij
  refine ⟨fun hoffset => ?_, hlt he he'⟩
  rcases Nat.lt_trichotomy i j with hij | rfl | hji
  · exact hij
  · cases he.symm.trans he'
    omega
  · have hback := hlt he' he hji
    omega

/-- The search ends after the entries whose offsets pass a test that only small ones pass. -/
theorem Increasing.search {p : UInt32 → Bool}
    (hp : ∀ a b : UInt32, a.toNat ≤ b.toNat → p b = true → p a = true) :
    partitionPoint (fun i => p (m.offsetAt i)) 0 m.size ≤ m.size ∧
    ∀ {i e}, m.mappings[i]? = some e →
      (i < partitionPoint (fun i => p (m.offsetAt i)) 0 m.size ↔ p e.offset = true) := by
  have htest : ∀ i j, 0 ≤ i → i ≤ j → j < m.size → p (m.offsetAt j) = true →
      p (m.offsetAt i) = true := by
    intro i j _ hij hj hpass
    obtain ⟨e, he⟩ := exists_entry (Nat.lt_of_le_of_lt hij hj)
    obtain ⟨e', he'⟩ := exists_entry hj
    rw [offsetAt_eq he'] at hpass
    rw [offsetAt_eq he]
    have hnot := mt (h.lt_iff he' he).mp (Nat.not_lt.mpr hij)
    exact hp _ _ (Nat.not_lt.mp hnot) hpass
  obtain ⟨-, hle, hsearch⟩ := partitionPoint_spec (Nat.zero_le m.size) htest
  refine ⟨hle, fun {i e} he => ?_⟩
  obtain ⟨hi, -⟩ := Array.getElem?_eq_some_iff.mp he
  rw [← offsetAt_eq he]
  exact hsearch i (Nat.zero_le i) hi

/-! ## The entry for an offset -/

variable {q : Nat} (hq : q < 0x100000000)

include hq

/-- The search for an entry ends after the entries before the offset. -/
theorem Increasing.exists_get?_place : ∃ k : Nat,
    m.get? q = (m.mappings[k]?).filter (·.offset == UInt32.ofNat q) ∧
    ∀ {i : Nat} {e : Mapping}, m.mappings[i]? = some e → (i < k ↔ e.offset.toNat < q) := by
  have hword : (UInt32.ofNat q).toNat = q := UInt32.toNat_ofNat_of_lt' hq
  have htest : ∀ a : UInt32, decide (a < UInt32.ofNat q) = true ↔ a.toNat < q := by
    intro a
    rw [decide_eq_true_eq, UInt32.lt_iff_toNat_lt, hword]
  obtain ⟨-, hsearch⟩ := h.search (p := fun a => a < UInt32.ofNat q) fun a b hab hb =>
    (htest a).mpr (Nat.lt_of_le_of_lt hab ((htest b).mp hb))
  exact ⟨_, rfl, fun he => (hsearch he).trans (htest _)⟩

/-- The search for what covers an offset ends after the entries up to the offset. -/
theorem Increasing.exists_lookup?_place : ∃ k ≤ m.size,
    m.lookup? q = (if k = 0 then none else m.mappings[k - 1]?) ∧
    ∀ {i : Nat} {e : Mapping}, m.mappings[i]? = some e → (i < k ↔ e.offset.toNat ≤ q) := by
  have hword : (UInt32.ofNat q).toNat = q := UInt32.toNat_ofNat_of_lt' hq
  have htest : ∀ a : UInt32, decide (a ≤ UInt32.ofNat q) = true ↔ a.toNat ≤ q := by
    intro a
    rw [decide_eq_true_eq, UInt32.le_iff_toNat_le, hword]
  obtain ⟨hle, hsearch⟩ := h.search (p := fun a => a ≤ UInt32.ofNat q) fun a b hab hb =>
    (htest a).mpr (Nat.le_trans hab ((htest b).mp hb))
  exact ⟨_, hle, rfl, fun he => (hsearch he).trans (htest _)⟩

/-- The entry at an offset is the one with that offset. -/
theorem Increasing.get?_eq_some_iff {e : Mapping} :
    m.get? q = some e ↔ e ∈ m.mappings.toList ∧ e.offset.toNat = q := by
  have hword : (UInt32.ofNat q).toNat = q := UInt32.toNat_ofNat_of_lt' hq
  obtain ⟨k, hget, hplace⟩ := h.exists_get?_place hq
  rw [hget, Option.filter_eq_some_iff, beq_iff_eq, ← UInt32.toNat_inj, hword, mem_mappings_iff]
  constructor
  · rintro ⟨he, hoffset⟩
    exact ⟨⟨k, he⟩, hoffset⟩
  · rintro ⟨⟨i, he⟩, hoffset⟩
    have hki : ¬ i < k := fun hi => by
      have hbefore := (hplace he).mp hi
      omega
    have hik : ¬ k < i := fun hk => by
      obtain ⟨hi, -⟩ := Array.getElem?_eq_some_iff.mp he
      obtain ⟨first, hfirst⟩ := exists_entry (Nat.lt_trans hk hi)
      have hbefore := (h.lt_iff hfirst he).mpr hk
      exact Nat.lt_irrefl k ((hplace hfirst).mpr (by omega))
    obtain rfl : i = k := by omega
    exact ⟨he, hoffset⟩

theorem Increasing.get?_eq_none_iff :
    m.get? q = none ↔ ∀ e ∈ m.mappings.toList, e.offset.toNat ≠ q := by
  simp only [Option.eq_none_iff_forall_ne_some, ne_eq, h.get?_eq_some_iff hq, not_and]

/-- The entry that covers an offset is the last one that is not after it. -/
theorem Increasing.lookup?_eq_some_iff {e : Mapping} :
    m.lookup? q = some e ↔ e ∈ m.mappings.toList ∧ e.offset.toNat ≤ q ∧
      ∀ e' ∈ m.mappings.toList, e'.offset.toNat ≤ q → e'.offset.toNat ≤ e.offset.toNat := by
  obtain ⟨k, hle, hlookup, hplace⟩ := h.exists_lookup?_place hq
  rw [hlookup]
  simp only [mem_mappings_iff]
  constructor
  · intro he
    have hk : k ≠ 0 := fun hk => by simp [hk] at he
    rw [if_neg hk] at he
    refine ⟨⟨k - 1, he⟩, (hplace he).mp (by omega), ?_⟩
    rintro e' ⟨i, he'⟩ hcovers
    have hi := (hplace he').mpr hcovers
    have hnot : ¬ k - 1 < i := by omega
    exact Nat.not_lt.mp (mt (h.lt_iff he he').mp hnot)
  · rintro ⟨⟨i, he⟩, hcovers, hgreatest⟩
    have hi := (hplace he).mpr hcovers
    obtain ⟨last, hlast⟩ := exists_entry (m := m) (i := k - 1) (by omega)
    have hbefore := hgreatest last ⟨k - 1, hlast⟩ ((hplace hlast).mp (by omega))
    have hlt := mt (h.lt_iff he hlast).mpr (Nat.not_lt.mpr hbefore)
    obtain rfl : i = k - 1 := by omega
    rw [if_neg (by omega), he]

theorem Increasing.lookup?_eq_none_iff :
    m.lookup? q = none ↔ ∀ e ∈ m.mappings.toList, q < e.offset.toNat := by
  constructor
  · intro hnone e he
    obtain ⟨k, hle, hlookup, hplace⟩ := h.exists_lookup?_place hq
    obtain ⟨i, he⟩ := mem_mappings_iff.mp he
    by_contra hcovers
    have hi := (hplace he).mpr (Nat.not_lt.mp hcovers)
    obtain ⟨last, hlast⟩ := exists_entry (m := m) (i := k - 1) (by omega)
    rw [hlookup, if_neg (by omega), hlast] at hnone
    cases hnone
  · intro hafter
    refine Option.eq_none_iff_forall_ne_some.mpr fun e he => ?_
    obtain ⟨hmem, hcovers, -⟩ := (h.lookup?_eq_some_iff hq).mp he
    exact Nat.not_le.mpr (hafter e hmem) hcovers

end Queries

/-! ## Recording and answering -/

/-- Whatever is offered to a source map, in whatever order: its offsets go up, its sources are
different and in use, each entry says what was offered, an offer is kept exactly if it has a place
and comes after all entries, and the entries are found by their offsets. A map that looks its
sources up in a table is the same map, and its table stays in step with the list of sources, so it
answers all calls alike. -/
theorem ofOffers_records_and_answers {offers : List Offer}
    (hbound : ∀ o ∈ offers, o.offset < 0x100000000) :
    let m := ofOffers offers
    m.Increasing ∧ m.sources.toList.Nodup ∧
    List.Forall₂ (Mapping.Keeps m.sources.toList) m.mappings.toList (Offer.kept offers) ∧
    (∀ i < m.sources.size, ∃ e ∈ m.mappings.toList, e.file.toNat = i) ∧
    (∀ o : Offer, o.offset < 0x100000000 →
      if o.span.isValid = true ∧ ∀ e ∈ m.mappings.toList, e.offset.toNat < o.offset then
        ∃ m' entry, m.add o.offset o.span o.file = (true, m') ∧
          m'.mappings = m.mappings.push entry ∧ entry.Keeps m'.sources.toList o
      else m.add o.offset o.span o.file = (false, m)) ∧
    ((IndexedMap.ofOffers offers).map = m ∧ (IndexedMap.ofOffers offers).InStep ∧
      ∀ calls, (IndexedMap.ofOffers offers).answers calls = m.answers calls) ∧
    ∀ q < 0x100000000,
      (∀ e, m.get? q = some e ↔ e ∈ m.mappings.toList ∧ e.offset.toNat = q) ∧
      (m.get? q = none ↔ ∀ e ∈ m.mappings.toList, e.offset.toNat ≠ q) ∧
      (∀ e, m.lookup? q = some e ↔ e ∈ m.mappings.toList ∧ e.offset.toNat ≤ q ∧
        ∀ e' ∈ m.mappings.toList, e'.offset.toNat ≤ q → e'.offset.toNat ≤ e.offset.toNat) ∧
      (m.lookup? q = none ↔ ∀ e ∈ m.mappings.toList, q < e.offset.toNat) := by
  intro m
  have h : m.Holds (Offer.kept offers) := holds_ofOffers hbound
  have hincreasing := h.map_increasing
  obtain ⟨hmap, hstep⟩ := IndexedMap.inStep_ofOffers offers
  refine ⟨hincreasing, h.nodup_sources, h.entries, fun i hi => h.exists_entry_of_source hi,
    fun o ho => ?_, ⟨hmap, hstep, fun calls => (hstep.answers calls).trans (by rw [hmap])⟩,
    fun q hq => ⟨fun e => hincreasing.get?_eq_some_iff hq,
      hincreasing.get?_eq_none_iff hq, fun e => hincreasing.lookup?_eq_some_iff hq,
      hincreasing.lookup?_eq_none_iff hq⟩⟩
  have hfits : (o.span.isValid = true ∧ ∀ e ∈ m.mappings.toList, e.offset.toNat < o.offset) ↔
      o.Fits (Offer.kept offers) := by
    unfold Offer.Fits
    rw [← List.forall_mem_map (f := fun e : Mapping => e.offset.toNat) (P := (· < o.offset)),
      h.offsets, List.forall_mem_map]
  split
  · rename_i hcase
    obtain ⟨m', entry, hadd, hpush, hkeeps, -⟩ := h.add_of_fits ho (hfits.mp hcase)
    exact ⟨m', entry, hadd, hpush, hkeeps⟩
  · rename_i hcase
    exact h.add_of_not_fits ho (mt hfits.mpr hcase)

/-- Of these offers one is too early, one repeats an offset, and one has no place. -/
theorem ofOffers_records_and_answers_mixed :
    let offers : List Offer := [⟨5, ⟨1, 1, 1, 3⟩, "a.gd"⟩, ⟨3, ⟨1, 2, 1, 3⟩, "b.gd"⟩,
      ⟨9, ⟨2, 4, 2, 1⟩, "c.gd"⟩, ⟨9, ⟨1, 5, 1, 1⟩, "a.gd"⟩, ⟨11, .none, "b.gd"⟩,
      ⟨12, ⟨1, 7, 3, 2⟩, "a.gd"⟩]
    let m := ofOffers offers
    m.sources = #["a.gd", "c.gd"] ∧ m.get? 11 = none ∧ m.lookup? 4 = none ∧
      m.lookup? 11 = some ⟨9, 1, 4, 2, 3⟩ := by
  intro offers m
  have hbound : ∀ o ∈ offers, o.offset < 0x100000000 := by decide
  obtain ⟨-, -, -, -, -, -, hqueries⟩ := ofOffers_records_and_answers hbound
  have hmappings : m.mappings.toList = [⟨5, 0, 1, 1, 4⟩, ⟨9, 1, 4, 2, 3⟩, ⟨12, 0, 7, 3, 5⟩] := by
    decide
  obtain ⟨-, hget, hlookup, -⟩ := hqueries 11 (by decide)
  obtain ⟨-, -, -, hbefore⟩ := hqueries 4 (by decide)
  refine ⟨by decide, ?_, ?_, ?_⟩
  · rw [hget, hmappings]
    decide
  · rw [hbefore, hmappings]
    decide
  · rw [hlookup, hmappings]
    decide

end SourceMap

end BytecodeCompiler
