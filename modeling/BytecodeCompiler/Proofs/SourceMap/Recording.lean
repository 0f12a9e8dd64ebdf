import BytecodeCompiler.Proofs.Firsts
import BytecodeCompiler.SourceMap
import Mathlib.Data.List.Forall2

-- What is recorded in a source map. Entries are offered in any order, and one is kept if it has a
-- place and comes after all that were kept before it. The names of the files of the entries that
-- are kept are the sources, each once.

namespace BytecodeCompiler

/-! ## Sources -/

theorem getElem?_of_lastIndex? {name : String} {names : List String} {i : Nat}
    (h : lastIndex? name names = some i) : names[i]? = some name := by
  induction names generalizing i with
  | nil => cases h
  | cons n ns ih =>
    unfold lastIndex? at h
    split at h
    · rename_i j hj
      cases h
      exact ih hj
    · split at h
      · rename_i hn
        cases h
        rw [hn]
        rfl
      · cases h

theorem lastIndex?_eq_none {name : String} {names : List String}
    (h : lastIndex? name names = none) : name ∉ names := by
  induction names with
  | nil => exact List.not_mem_nil
  | cons n ns ih =>
    unfold lastIndex? at h
    split at h
    · cases h
    · rename_i hnone
      split at h
      · cases h
      · rename_i hn
        rw [List.mem_cons, not_or]
        exact ⟨fun heq => hn heq.symm, ih hnone⟩

namespace SourceMap

/-- The source of a name is where the name stands. A new name is added at the end. -/
theorem source_spec (m : SourceMap) (name : String) (hsize : m.sources.size < 0x100000000) :
    (m.source name).2.mappings = m.mappings ∧
    (m.source name).2.sources.toList =
      (if name ∈ m.sources.toList then m.sources.toList else m.sources.toList ++ [name]) ∧
    (m.source name).2.sources.toList[(m.source name).1.toNat]? = some name := by
  obtain ⟨version, sources, mappings⟩ := m
  simp only at hsize
  cases hi : lastIndex? name sources.toList with
  | some i =>
    have hname := getElem?_of_lastIndex? hi
    obtain ⟨hlt, -⟩ := List.getElem?_eq_some_iff.mp hname
    rw [Array.length_toList] at hlt
    have hindex : (UInt32.ofNat i).toNat = i := UInt32.toNat_ofNat_of_lt' (Nat.lt_trans hlt hsize)
    simp only [source, hi, hindex]
    exact ⟨trivial, (if_pos (List.mem_of_getElem? hname)).symm, hname⟩
  | none =>
    have hindex : (UInt32.ofNat sources.size).toNat = sources.size :=
      UInt32.toNat_ofNat_of_lt' hsize
    simp only [source, hi, hindex, Array.toList_push]
    exact ⟨trivial, (if_neg (lastIndex?_eq_none hi)).symm, by simp⟩

/-! ## One entry -/

section Add

variable (m : SourceMap) {offset : Nat} {span : Span} {name : String}

/-- An offset is accepted if the last recorded one is before it. -/
theorem accepts_iff {offset : Nat} (h : offset < 0x100000000) :
    m.accepts (UInt32.ofNat offset) = true ↔
      ∀ last ∈ (m.mappings.toList.map (·.offset.toNat)).getLast?, last < offset := by
  have hoffset : (UInt32.ofNat offset).toNat = offset := UInt32.toNat_ofNat_of_lt' h
  unfold accepts
  rw [List.getLast?_map, Array.getLast?_toList]
  cases m.mappings.back? with
  | none => simp
  | some last => simp [UInt32.lt_iff_toNat_lt, hoffset]

theorem add_of_accepts (hvalid : span.isValid = true)
    (haccepts : m.accepts (UInt32.ofNat offset) = true) :
    m.add offset span name = (true, (m.source name).2.push
      ⟨UInt32.ofNat offset, (m.source name).1, span.line, span.col, span.colEnd⟩) := by
  simp [add, hvalid, haccepts]

theorem add_of_not_accepts (h : ¬ (span.isValid = true ∧ m.accepts (UInt32.ofNat offset) = true)) :
    m.add offset span name = (false, m) := by
  simpa [add] using h

@[simp]
theorem sources_push (e : Mapping) : (m.push e).sources = m.sources := rfl

@[simp]
theorem mappings_push (e : Mapping) : (m.push e).mappings = m.mappings.push e := rfl

/-- What entries say is still said of them when a source or an entry is added at the end. -/
theorem forall₂_push {α : Type} {R : List String → Mapping → α → Prop}
    (hmore : ∀ {sources sources' e a}, sources <+: sources' → R sources e a → R sources' e a)
    {as : List α} {a : α} {entry : Mapping} (hsize : m.sources.size < 0x100000000)
    (h : List.Forall₂ (R m.sources.toList) m.mappings.toList as)
    (hnew : R (m.source name).2.sources.toList entry a) :
    List.Forall₂ (R ((m.source name).2.push entry).sources.toList)
      ((m.source name).2.push entry).mappings.toList (as ++ [a]) := by
  obtain ⟨hmappings, hsources, -⟩ := m.source_spec name hsize
  have hprefix : m.sources.toList <+: (m.source name).2.sources.toList := by
    rw [hsources]
    split
    · exact List.prefix_rfl
    · exact List.prefix_append _ _
  have hold := h.imp fun _ _ he => hmore hprefix he
  rw [sources_push, mappings_push, Array.toList_push, hmappings]
  exact List.rel_append hold (.cons hnew .nil)

end Add

end SourceMap

theorem map_offset_of_forall₂ {α : Type} {R : Mapping → α → Prop} {offset : α → Nat}
    (hR : ∀ e a, R e a → e.offset.toNat = offset a) {entries : List Mapping} {as : List α}
    (h : List.Forall₂ R entries as) : entries.map (·.offset.toNat) = as.map offset := by
  induction h with
  | nil => rfl
  | cons hfirst _ ih => rw [List.map_cons, List.map_cons, hR _ _ hfirst, ih]

/-- Above increasing numbers, being after the last is being after all. -/
theorem forall_getLast?_lt_iff {offsets : List Nat} (h : offsets.Pairwise (· < ·)) {offset : Nat} :
    (∀ last ∈ offsets.getLast?, last < offset) ↔ ∀ o ∈ offsets, o < offset := by
  rcases List.eq_nil_or_concat offsets with rfl | ⟨front, last, rfl⟩
  · simp
  · rw [List.concat_eq_append] at h ⊢
    obtain ⟨-, -, hlast⟩ := List.pairwise_append.mp h
    simp only [List.getLast?_concat, Option.mem_some_iff, forall_eq', List.forall_mem_append,
      List.forall_mem_singleton]
    refine ⟨fun hlt => ⟨fun o ho => ?_, hlt⟩, And.right⟩
    exact Nat.lt_trans (hlast o ho last List.mem_cons_self) hlt

/-! ## Many entries -/

/-- An entry that is offered to a source map: where bytes start, and where they came from. -/
structure Offer where
  offset : Nat
  span : Span
  file : String
deriving DecidableEq, Inhabited

namespace Offer

/-- The offer has a place, and it comes after the others. -/
def Fits (o : Offer) (kept : List Offer) : Prop :=
  o.span.isValid = true ∧ ∀ k ∈ kept, k.offset < o.offset

instance (o : Offer) (kept : List Offer) : Decidable (o.Fits kept) :=
  inferInstanceAs (Decidable (_ ∧ _))

/-- The offers with one more, if it fits. -/
def keep (kept : List Offer) (o : Offer) : List Offer := if o.Fits kept then kept ++ [o] else kept

/-- The offers that are kept. -/
def kept (offers : List Offer) : List Offer := offers.foldl keep []

end Offer

/-- The entry says what was offered. A column that is too large starts over. -/
structure Mapping.Keeps (sources : List String) (e : Mapping) (o : Offer) : Prop where
  offset : e.offset.toNat = o.offset
  file : sources[e.file.toNat]? = some o.file
  line : e.line = o.span.line
  colStart : e.colStart = o.span.col
  colEnd : e.colEnd = o.span.colEnd

theorem Mapping.Keeps.more {sources sources' : List String} {e : Mapping} {o : Offer}
    (hmore : sources <+: sources') (h : e.Keeps sources o) : e.Keeps sources' o := by
  obtain ⟨rest, rfl⟩ := hmore
  refine ⟨h.offset, ?_, h.line, h.colStart, h.colEnd⟩
  rw [List.getElem?_append_left (List.getElem?_eq_some_iff.mp h.file).1, h.file]

namespace SourceMap

/-- The map after one more offer. -/
def offer (m : SourceMap) (o : Offer) : SourceMap := (m.add o.offset o.span o.file).2

/-- The map of all offers. -/
def ofOffers (offers : List Offer) : SourceMap := offers.foldl offer .empty

/-- The source map has exactly the entries of these offers, in order. -/
structure Holds (m : SourceMap) (kept : List Offer) : Prop where
  sources : m.sources.toList = firstsBy id (kept.map (·.file))
  entries : List.Forall₂ (Mapping.Keeps m.sources.toList) m.mappings.toList kept
  increasing : kept.Pairwise (·.offset < ·.offset)

theorem holds_empty : empty.Holds [] := ⟨rfl, .nil, .nil⟩

section Holds

variable {m : SourceMap} {kept : List Offer} {o : Offer}

theorem Holds.offsets (h : m.Holds kept) :
    m.mappings.toList.map (·.offset.toNat) = kept.map (·.offset) :=
  map_offset_of_forall₂ (fun _ _ he => he.offset) h.entries

theorem Holds.nodup_sources (h : m.Holds kept) : m.sources.toList.Nodup := by
  rw [h.sources]
  exact nodup_firstsBy_id _

/-- Each source is the file of an entry. -/
theorem Holds.exists_entry_of_source (h : m.Holds kept) {i : Nat} (hi : i < m.sources.size) :
    ∃ e ∈ m.mappings.toList, e.file.toNat = i := by
  obtain ⟨name, hname⟩ : ∃ name, m.sources.toList[i]? = some name :=
    ⟨_, List.getElem?_eq_getElem hi⟩
  have hmem := List.mem_of_getElem? hname
  rw [h.sources, mem_firstsBy_id] at hmem
  obtain ⟨o, ho, rfl⟩ := List.mem_map.mp hmem
  obtain ⟨j, hj, rfl⟩ := List.getElem_of_mem ho
  have hj' : j < m.mappings.toList.length := h.entries.length_eq ▸ hj
  have hkeeps := h.entries.get hj' hj
  refine ⟨m.mappings.toList.get ⟨j, hj'⟩, List.get_mem _ _, ?_⟩
  obtain ⟨hfile, hsame⟩ := List.getElem?_eq_some_iff.mp hkeeps.file
  obtain ⟨_, hsource⟩ := List.getElem?_eq_some_iff.mp hname
  exact h.nodup_sources.getElem_inj_iff.mp (hsame.trans hsource.symm)

/-- There are no more sources than entries, and no more entries than offsets. -/
theorem Holds.size_sources_le (h : m.Holds kept) {bound : Nat}
    (hbound : ∀ k ∈ kept, k.offset < bound) : m.sources.size ≤ bound := by
  have hnodup : (kept.map (·.offset)).Nodup :=
    (List.pairwise_map.mpr h.increasing).imp fun hlt => Nat.ne_of_lt hlt
  calc m.sources.size
      = (firstsBy id (kept.map (·.file))).length := by rw [← h.sources, Array.length_toList]
    _ ≤ (kept.map (·.file)).length := (firstsBy_sublist _ _).length_le
    _ = kept.length := List.length_map _
    _ ≤ bound := length_le_of_nodup_map hnodup hbound

theorem Holds.fits_iff (h : m.Holds kept) (hbound : o.offset < 0x100000000) :
    o.Fits kept ↔ o.span.isValid = true ∧ m.accepts (UInt32.ofNat o.offset) = true := by
  unfold Offer.Fits
  rw [accepts_iff m hbound, h.offsets,
    forall_getLast?_lt_iff (List.pairwise_map.mpr h.increasing), List.forall_mem_map]

/-- An offer that fits becomes the last entry. -/
theorem Holds.add_of_fits (h : m.Holds kept) (hbound : o.offset < 0x100000000)
    (hfits : o.Fits kept) :
    ∃ m' entry, m.add o.offset o.span o.file = (true, m') ∧
      m'.mappings = m.mappings.push entry ∧ entry.Keeps m'.sources.toList o ∧
      m'.Holds (kept ++ [o]) := by
  obtain ⟨hvalid, haccepts⟩ := (h.fits_iff hbound).mp hfits
  have hsize : m.sources.size < 0x100000000 :=
    Nat.lt_of_le_of_lt (h.size_sources_le hfits.2) hbound
  obtain ⟨hmappings, hsources, hindex⟩ := m.source_spec o.file hsize
  have hentry : Mapping.Keeps (m.source o.file).2.sources.toList
      ⟨UInt32.ofNat o.offset, (m.source o.file).1, o.span.line, o.span.col, o.span.colEnd⟩ o :=
    ⟨UInt32.toNat_ofNat_of_lt' hbound, hindex, rfl, rfl, rfl⟩
  refine ⟨_, _, add_of_accepts m hvalid haccepts, ?_, hentry, ?_, ?_, ?_⟩
  · rw [mappings_push, hmappings]
  · rw [List.map_append, List.map_singleton, firstsBy_concat, List.map_id, id_eq, ← h.sources]
    exact hsources
  · exact forall₂_push (R := Mapping.Keeps) m Mapping.Keeps.more hsize h.entries hentry
  · refine List.pairwise_append.mpr ⟨h.increasing, List.pairwise_singleton _ _, ?_⟩
    intro k hk k' hk'
    rw [List.mem_singleton.mp hk']
    exact hfits.2 k hk

/-- An offer that does not fit changes nothing. -/
theorem Holds.add_of_not_fits (h : m.Holds kept) (hbound : o.offset < 0x100000000)
    (hfits : ¬ o.Fits kept) : m.add o.offset o.span o.file = (false, m) :=
  add_of_not_accepts m (mt (h.fits_iff hbound).mpr hfits)

theorem Holds.offer (h : m.Holds kept) (hbound : o.offset < 0x100000000) :
    (m.offer o).Holds (Offer.keep kept o) := by
  unfold SourceMap.offer Offer.keep
  by_cases hfits : o.Fits kept
  · obtain ⟨m', entry, hadd, -, -, hholds⟩ := h.add_of_fits hbound hfits
    rwa [hadd, if_pos hfits]
  · rwa [h.add_of_not_fits hbound hfits, if_neg hfits]

/-- A map holds what was kept of all that was offered. -/
theorem holds_ofOffers {offers : List Offer} (hbound : ∀ o ∈ offers, o.offset < 0x100000000) :
    (ofOffers offers).Holds (Offer.kept offers) := by
  have hfold : ∀ {m : SourceMap} {kept : List Offer}, m.Holds kept →
      (offers.foldl SourceMap.offer m).Holds (offers.foldl Offer.keep kept) := by
    induction offers with
    | nil => exact fun h => h
    | cons o offers ih =>
      intro m kept h
      obtain ⟨hfirst, hrest⟩ := List.forall_mem_cons.mp hbound
      exact ih hrest (h.offer hfirst)
  exact hfold holds_empty

end Holds

end SourceMap

end BytecodeCompiler
