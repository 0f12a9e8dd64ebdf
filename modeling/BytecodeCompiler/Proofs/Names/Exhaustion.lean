import BytecodeCompiler.Proofs.Firsts
import BytecodeCompiler.Proofs.Names.Hashed
import BytecodeCompiler.Proofs.Names.Turns
import Mathlib.Data.List.GetD
import Mathlib.Data.List.Perm.Subperm
import Mathlib.Data.String.Basic

-- How long names from a hash last. The names that were given are the different ones among the
-- candidates so far, in the order in which they first came. There are only so many names of four
-- letters, and when all of them were given no further candidate is new.

namespace BytecodeCompiler.HashedNames

open NameSupply

/-! ## The search -/

section Search

variable {digest : UInt64 → UInt64} {counter : UInt64} {issued : Std.HashSet String}

/-- The search finds the first candidate that was not given before, and passes over those that
were. -/
theorem search_eq_some_iff {steps : Nat} {found : Ident × HashedNames} :
    search steps ⟨digest, counter, issued⟩ = some found ↔
      ∃ j < steps, (∀ k < j, issued.contains (spell (digest (counter + .ofNat k))) = true) ∧
        issued.contains (spell (digest (counter + .ofNat j))) = false ∧
        found = (.name (spell (digest (counter + .ofNat j))),
          ⟨digest, counter + .ofNat (j + 1),
            issued.insert (spell (digest (counter + .ofNat j)))⟩) := by
  induction steps generalizing counter with
  | zero => simp [search]
  | succ steps ih =>
    have hzero : counter + UInt64.ofNat 0 = counter := by simp
    have hnext : ∀ k, counter + 1 + UInt64.ofNat k = counter + .ofNat (k + 1) := by
      intro k
      rw [UInt64.ofNat_add, UInt64.add_comm (.ofNat k), ← UInt64.add_assoc]
      rfl
    by_cases hgiven : issued.contains (spell (digest counter)) = true
    · simp only [search, hgiven, if_true, ih, hnext]
      constructor
      · rintro ⟨j, hj, hbefore, hnew, hfound⟩
        refine ⟨j + 1, by omega, fun k hk => ?_, hnew, hfound⟩
        rcases k with _ | k
        · rwa [hzero]
        · exact hbefore k (by omega)
      · rintro ⟨j, hj, hbefore, hnew, hfound⟩
        rcases j with _ | j
        · rw [hzero, hgiven] at hnew
          cases hnew
        · exact ⟨j, by omega, fun k hk => hbefore (k + 1) (by omega), hnew, hfound⟩
    · simp only [search, hgiven, Bool.false_eq_true, if_false, Option.some.injEq]
      constructor
      · rintro rfl
        refine ⟨0, by omega, fun k hk => absurd hk (by omega), ?_, ?_⟩
        · rw [hzero]
          simpa using hgiven
        · rw [hzero]
          rfl
      · rintro ⟨j, -, hbefore, -, rfl⟩
        rcases j with _ | j
        · rw [hzero]
          rfl
        · have hfirst := hbefore 0 (by omega)
          rw [hzero] at hfirst
          exact absurd hfirst hgiven

theorem search_eq_none_iff {steps : Nat} :
    search steps ⟨digest, counter, issued⟩ = none ↔
      ∀ j < steps, issued.contains (spell (digest (counter + .ofNat j))) = true := by
  constructor
  · intro hnone j
    induction j using Nat.strongRecOn with
    | ind j ih =>
      intro hj
      by_contra hnew
      have hfound := search_eq_some_iff.mpr
        ⟨j, hj, fun k hk => ih k hk (by omega), by simpa using hnew, rfl⟩
      rw [hnone] at hfound
      cases hfound
  · intro hgiven
    cases hsearch : search steps ⟨digest, counter, issued⟩ with
    | none => rfl
    | some found =>
      obtain ⟨j, hj, -, hnew, -⟩ := search_eq_some_iff.mp hsearch
      rw [hgiven j hj] at hnew
      cases hnew

/-- A call finds nothing if every value of the counter comes to a name that was given. The counter
takes all its values in one turn. -/
theorem fresh_eq_none_iff {s : HashedNames} :
    fresh s = none ↔ ∀ c, s.issued.contains (spell (s.digest c)) = true := by
  obtain ⟨digest, counter, issued⟩ := s
  constructor
  · intro hnone c
    have hturn := search_eq_none_iff.mp hnone (c - counter).toNat (UInt64.toNat_lt _)
    rwa [UInt64.ofNat_toNat, UInt64.add_comm, UInt64.sub_add_cancel] at hturn
  · intro hgiven
    exact search_eq_none_iff.mpr fun j _ => hgiven _

/-- So it would find nothing in any number of steps. -/
theorem forall_search_eq_none_iff {s : HashedNames} :
    (∀ steps, search steps s = none) ↔ ∀ c, s.issued.contains (spell (s.digest c)) = true := by
  constructor
  · intro hnone
    exact fresh_eq_none_iff.mp (hnone counterSpan)
  · intro hgiven steps
    exact search_eq_none_iff.mpr fun j _ => hgiven _

end Search

/-! ## The names given so far -/

/-- The names that the first steps of the counter come to. -/
def candidates (digest : UInt64 → UInt64) (n : Nat) : List String :=
  (List.range n).map fun k => spell (digest (.ofNat k))

theorem candidates_add (digest : UInt64 → UInt64) (n j : Nat) :
    candidates digest (n + j) =
      candidates digest n ++ (List.range j).map fun k => spell (digest (.ofNat (n + k))) := by
  simp [candidates, List.range_add]

/-- The supply after so many steps of the counter. The different candidates were given. -/
structure Stands (digest : UInt64 → UInt64) (n : Nat) (s : HashedNames) : Prop where
  digest_eq : s.digest = digest
  counter_eq : s.counter = .ofNat n
  issued : ∀ name, s.issued.contains name = true ↔ name ∈ candidates digest n
  size : s.issued.size = (firstsBy id (candidates digest n)).length

theorem stands_ofHash (hash : UInt64 → UInt64 → UInt64) (seed : UInt64) :
    Stands (hash seed) 0 (ofHash hash seed) :=
  ⟨rfl, rfl, by simp [ofHash, candidates], rfl⟩

section Stands

variable {digest : UInt64 → UInt64} {n : Nat} {s s' : HashedNames}

/-- What is found is the next candidate that differs from all before it. -/
theorem Stands.found {steps : Nat} {i : Ident} (h : Stands digest n s)
    (hsearch : search steps s = some (i, s')) :
    ∃ n' name, Stands digest n' s' ∧ i = .name name ∧
      firstsBy id (candidates digest n') = firstsBy id (candidates digest n) ++ [name] := by
  obtain ⟨hdigest, hcounter, hissued, hsize⟩ := h
  obtain ⟨d, c, issued⟩ := s
  simp only at hdigest hcounter hissued hsize
  subst hdigest hcounter
  obtain ⟨j, -, hbefore, hnew, hfound⟩ := search_eq_some_iff.mp hsearch
  simp only [← UInt64.ofNat_add] at hbefore hnew hfound
  cases hfound
  -- The candidates that were passed over were there already, and the one that was found was not.
  have hpassed : ((List.range j).map fun k => spell (d (.ofNat (n + k)))) ⊆ candidates d n := by
    intro name hname
    obtain ⟨k, hk, rfl⟩ := List.mem_map.mp hname
    exact (hissued _).mp (hbefore k (List.mem_range.mp hk))
  have hnames : ∀ name, name ∈ candidates d (n + j) ↔ name ∈ candidates d n := by
    intro name
    rw [candidates_add, List.mem_append]
    exact ⟨fun hname => hname.elim id fun hname => hpassed hname, Or.inl⟩
  have hconcat : candidates d (n + (j + 1)) =
      candidates d (n + j) ++ [spell (d (.ofNat (n + j)))] := by
    simp [candidates, ← Nat.add_assoc, List.range_succ]
  have hfresh : spell (d (.ofNat (n + j))) ∉ candidates d n := by
    intro hmem
    rw [(hissued _).mpr hmem] at hnew
    cases hnew
  have hfirsts : firstsBy id (candidates d (n + (j + 1))) =
      firstsBy id (candidates d n) ++ [spell (d (.ofNat (n + j)))] := by
    have hold : firstsBy id (candidates d (n + j)) = firstsBy id (candidates d n) := by
      rw [candidates_add, firstsBy_id_append_of_subset hpassed]
    rw [hconcat, firstsBy_concat, hold, List.map_id, id_eq,
      if_neg fun hmem => hfresh (mem_firstsBy_id.mp hmem)]
  refine ⟨n + (j + 1), _, ⟨rfl, rfl, fun name => ?_, ?_⟩, rfl, hfirsts⟩
  · rw [hconcat, List.mem_append, hnames, ← hissued, Std.HashSet.contains_insert]
    rw [Bool.or_eq_true, beq_iff_eq, List.mem_singleton, or_comm, @eq_comm _ name]
  · have hnotMem : spell (d (.ofNat (n + j))) ∉ issued := by
      rw [← Std.HashSet.contains_eq_false_iff_not_mem]
      exact hnew
    rw [hfirsts, List.length_append, ← hsize, Std.HashSet.size_insert, if_neg hnotMem]
    rfl

/-- The names of a run are the different candidates, in the order in which they first came. -/
theorem Stands.draws {is : List Ident} (h : Stands digest n s) (hdraws : Draws s is s') :
    ∃ n', Stands digest n' s' ∧
      (firstsBy id (candidates digest n')).map Ident.name =
        (firstsBy id (candidates digest n)).map Ident.name ++ is := by
  induction hdraws generalizing n with
  | nothing s => exact ⟨n, h, (List.append_nil _).symm⟩
  | next hfresh _ ih =>
    obtain ⟨n₁, name, h₁, rfl, hfirsts⟩ := h.found hfresh
    obtain ⟨n', h', hnames⟩ := ih h₁
    refine ⟨n', h', ?_⟩
    rw [hnames, hfirsts, List.map_append, List.append_assoc]
    rfl

end Stands

/-! ## Names of four letters -/

theorem length_alphabet : alphabet.length = 52 := by decide

theorem letter_mem (n : Nat) : letter n ∈ alphabet := by
  have hlt : n % alphabet.length < alphabet.length := Nat.mod_lt _ (by rw [length_alphabet]; decide)
  rw [letter, List.getD_eq_getElem _ _ hlt]
  exact List.getElem_mem hlt

theorem isAlpha_of_mem_alphabet : ∀ c ∈ alphabet, c.isAlpha = true :=
  List.all_eq_true.mp (by decide)

theorem toList_spell (hash : UInt64) :
    (spell hash).toList =
      (List.range nameLength).map fun i => letter (hash.toNat / Nat.pow 65536 i % 65536) :=
  String.toList_ofList

theorem mem_alphabet_of_mem_spell {hash : UInt64} {c : Char} (h : c ∈ (spell hash).toList) :
    c ∈ alphabet := by
  rw [toList_spell] at h
  obtain ⟨i, -, rfl⟩ := List.mem_map.mp h
  exact letter_mem _

theorem length_spell (hash : UInt64) : (spell hash).toList.length = 4 := by
  rw [toList_spell, List.length_map, List.length_range, nameLength]

/-- A letter takes one byte. -/
theorem utf8Len_of_subset_alphabet {cs : List Char} (h : ∀ c ∈ cs, c ∈ alphabet) :
    String.utf8Len cs = cs.length := by
  induction cs with
  | nil => rfl
  | cons c cs ih =>
    obtain ⟨hc, hcs⟩ := List.forall_mem_cons.mp h
    have hsize : alphabet.all (·.utf8Size == 1) = true := by decide
    rw [String.utf8Len_cons, ih hcs, beq_iff_eq.mp (List.all_eq_true.mp hsize c hc),
      List.length_cons]

theorem ofName?_spell (hash : UInt64) : Ident.ofName? (spell hash) = some (.name (spell hash)) := by
  have hsize : (spell hash).utf8ByteSize = 4 := by
    have hletters : String.utf8Len (spell hash).toList = (spell hash).toList.length :=
      utf8Len_of_subset_alphabet fun _ => mem_alphabet_of_mem_spell
    rw [← String.utf8ByteSize_ofList, String.ofList_toList, length_spell] at hletters
    exact hletters
  rw [Ident.ofName?, if_pos]
  rw [hsize]
  decide

/-- All rows of so many letters. -/
def words : Nat → List (List Char)
  | 0 => [[]]
  | n + 1 => alphabet.flatMap fun c => (words n).map (c :: ·)

theorem length_flatMap_cons (cs : List Char) (ws : List (List Char)) :
    (cs.flatMap fun c => ws.map (c :: ·)).length = cs.length * ws.length := by
  induction cs with
  | nil => simp
  | cons c cs ih =>
    rw [List.flatMap_cons, List.length_append, List.length_map, ih, List.length_cons, Nat.succ_mul,
      Nat.add_comm]

theorem length_words (n : Nat) : (words n).length = Nat.pow 52 n := by
  induction n with
  | zero => rfl
  | succ n ih =>
    rw [words, length_flatMap_cons, ih, length_alphabet, Nat.mul_comm]
    rfl

theorem mem_words {cs : List Char} (h : ∀ c ∈ cs, c ∈ alphabet) : cs ∈ words cs.length := by
  induction cs with
  | nil => exact List.mem_cons_self
  | cons c cs ih =>
    obtain ⟨hc, hcs⟩ := List.forall_mem_cons.mp h
    exact List.mem_flatMap.mpr ⟨c, hc, List.mem_map_of_mem (ih hcs)⟩

theorem spell_mem_words (hash : UInt64) : (spell hash).toList ∈ words 4 := by
  rw [← length_spell hash]
  exact mem_words fun c hc => mem_alphabet_of_mem_spell hc

/-- When as many different names were given as there are, every name was given. -/
theorem Stands.exhausted {digest : UInt64 → UInt64} {n : Nat} {s : HashedNames}
    (h : Stands digest n s) (hall : s.issued.size = 52 * 52 * 52 * 52) (hash : UInt64) :
    s.issued.contains (spell hash) = true := by
  have hcount : (words 4).length = 52 * 52 * 52 * 52 := length_words 4
  have hnodup : ((firstsBy id (candidates digest n)).map String.toList).Nodup :=
    (nodup_firstsBy_id _).map fun _ _ heq => String.toList_injective heq
  have hsubset : (firstsBy id (candidates digest n)).map String.toList ⊆ words 4 := by
    intro word hword
    obtain ⟨name, hname, rfl⟩ := List.mem_map.mp hword
    obtain ⟨k, -, rfl⟩ := List.mem_map.mp (mem_firstsBy_id.mp hname)
    exact spell_mem_words _
  have hperm := (List.subperm_of_subset hnodup hsubset).perm_of_length_le
    (by rw [hcount, List.length_map, ← h.size, hall])
  obtain ⟨name, hname, heq⟩ := List.mem_map.mp (hperm.mem_iff.mpr (spell_mem_words hash))
  rw [h.issued, ← String.toList_injective heq]
  exact mem_firstsBy_id.mp hname

/-! ## Whole runs -/

/-- Whatever the hash is, every name of a run has four letters, differs from those before it and is
kept among the names that were given, which are no others. It depends on the seed and its number
alone: it is the next one among the different candidates. A call returns unless no number of steps
comes to a new name, which is so when the run has all names that the hash comes to, and always when
it has as many names as there are. -/
theorem names_differ_until_exhausted (hash : UInt64 → UInt64 → UInt64) :
    ∃ nth : UInt64 → Nat → Ident, ∀ seed is s, Draws (ofHash hash seed) is s →
      s.issued.size = is.length ∧
      (∀ name, s.issued.contains name = true ↔ Ident.name name ∈ is) ∧
      is.Nodup ∧
      (∀ i ∈ is, ∃ name, i = .name name ∧ name.toList.length = 4 ∧
        (∀ c ∈ name.toList, c.isAlpha = true) ∧ Ident.ofName? name = some i) ∧
      (∀ k < is.length, is[k]? = some (nth seed k)) ∧
      (∃ n, is = (firstsBy id (candidates (hash seed) n)).map .name) ∧
      (fresh s = none ↔ ∀ steps, search steps s = none) ∧
      ((∀ steps, search steps s = none) ↔ ∀ c, Ident.name (spell (hash seed c)) ∈ is) ∧
      (is.length = 52 * 52 * 52 * 52 → ∀ steps, search steps s = none) := by
  have hnth : ∀ seed k, ∃ i : Ident, ∀ is s, Draws (ofHash hash seed) is s → k < is.length →
      is[k]? = some i := by
    intro seed k
    by_cases hlong : ∃ is s, Draws (ofHash hash seed) is s ∧ k < is.length
    · obtain ⟨is, s, hdraws, hk⟩ := hlong
      refine ⟨is[k], fun js s' hdraws' hk' => ?_⟩
      rw [← List.getElem?_eq_getElem hk]
      rcases Nat.le_total is.length js.length with hle | hle
      · rw [← hdraws.take_eq hdraws' hle, List.getElem?_take_of_lt hk]
      · rw [← hdraws'.take_eq hdraws hle, List.getElem?_take_of_lt hk']
    · exact ⟨default, fun is s hdraws hk => absurd ⟨is, s, hdraws, hk⟩ hlong⟩
  choose nth hnth using hnth
  refine ⟨nth, fun seed is s hdraws => ?_⟩
  obtain ⟨n, hstands, hnames⟩ := (stands_ofHash hash seed).draws hdraws
  replace hnames : is = (firstsBy id (candidates (hash seed) n)).map .name := hnames.symm
  have hsize : s.issued.size = is.length := by rw [hstands.size, hnames, List.length_map]
  have hissued : ∀ name, s.issued.contains name = true ↔ Ident.name name ∈ is := by
    intro name
    rw [hstands.issued, hnames, ← mem_firstsBy_id]
    simp
  refine ⟨hsize, hissued, neverRepeats _ _ _ hdraws, fun i hi => ?_,
    fun k hk => hnth seed k is s hdraws hk, ⟨n, hnames⟩, ?_, ?_, fun hall => ?_⟩
  · rw [hnames] at hi
    obtain ⟨name, hname, rfl⟩ := List.mem_map.mp hi
    obtain ⟨k, -, rfl⟩ := List.mem_map.mp (mem_firstsBy_id.mp hname)
    exact ⟨_, rfl, length_spell _,
      fun c hc => isAlpha_of_mem_alphabet c (mem_alphabet_of_mem_spell hc), ofName?_spell _⟩
  · rw [fresh_eq_none_iff, forall_search_eq_none_iff]
  · simp only [forall_search_eq_none_iff, hstands.digest_eq, hissued]
  · exact forall_search_eq_none_iff.mpr fun c => hstands.exhausted (hsize.trans hall) _

/-! ## A hash that comes to every name -/

theorem letter_injOn {a b : Nat} (ha : a < 52) (hb : b < 52) (h : letter a = letter b) : a = b := by
  have hnodup : alphabet.Nodup := by decide
  have hlength := length_alphabet
  unfold letter at h
  rw [hlength, Nat.mod_eq_of_lt ha, Nat.mod_eq_of_lt hb, List.getD_eq_getElem _ _ (by omega),
    List.getD_eq_getElem _ _ (by omega)] at h
  exact hnodup.getElem_inj_iff.mp h

/-- The word of four numbers of sixteen bits. -/
def word (a b c d : Nat) : UInt64 :=
  .ofNat (a + b * 65536 + c * 4294967296 + d * 281474976710656)

theorem toList_spell_word {a b c d : Nat} (ha : a < 65536) (hb : b < 65536) (hc : c < 65536)
    (hd : d < 65536) :
    (spell (word a b c d)).toList = [letter a, letter b, letter c, letter d] := by
  obtain ⟨w, hw⟩ : ∃ w, w = a + b * 65536 + c * 4294967296 + d * 281474976710656 := ⟨_, rfl⟩
  have hword : (word a b c d).toNat = w := by
    rw [word, ← hw]
    exact UInt64.toNat_ofNat_of_lt' (by rw [UInt64.size]; omega)
  have h₀ : w / 1 % 65536 = a := by omega
  have h₁ : w / 65536 % 65536 = b := by omega
  have h₂ : w / 4294967296 % 65536 = c := by omega
  have h₃ : w / 281474976710656 % 65536 = d := by omega
  rw [toList_spell, hword]
  change [letter (w / 1 % 65536), letter (w / 65536 % 65536), letter (w / 4294967296 % 65536),
    letter (w / 281474976710656 % 65536)] = _
  rw [h₀, h₁, h₂, h₃]

/-- A number with a digit to the base 52 in each sixteen bits. -/
def spread (n : Nat) : UInt64 := word (n % 52) (n / 52 % 52) (n / 2704 % 52) (n / 140608 % 52)

theorem spell_spread_injOn {a b : Nat} (ha : a < 52 * 52 * 52 * 52) (hb : b < 52 * 52 * 52 * 52)
    (h : spell (spread a) = spell (spread b)) : a = b := by
  have hletters := congrArg String.toList h
  unfold spread at hletters
  rw [toList_spell_word (by omega) (by omega) (by omega) (by omega),
    toList_spell_word (by omega) (by omega) (by omega) (by omega)] at hletters
  injection hletters with h₀ hletters
  injection hletters with h₁ hletters
  injection hletters with h₂ hletters
  injection hletters with h₃ hletters
  have h₀ := letter_injOn (by omega) (by omega) h₀
  have h₁ := letter_injOn (by omega) (by omega) h₁
  have h₂ := letter_injOn (by omega) (by omega) h₂
  have h₃ := letter_injOn (by omega) (by omega) h₃
  omega

/-- As long as the run lacks a candidate, there is another name. -/
theorem exists_draws_of_nodup (hash : UInt64 → UInt64 → UInt64) (seed : UInt64) {bound : Nat}
    (hnodup : (candidates (hash seed) bound).Nodup) :
    ∀ n ≤ bound, ∃ is s, Draws (ofHash hash seed) is s ∧ is.length = n := by
  intro n
  induction n with
  | zero => exact fun _ => ⟨[], _, .nothing _, rfl⟩
  | succ n ih =>
    intro hn
    obtain ⟨is, s, hdraws, hlength⟩ := ih (by omega)
    obtain ⟨m, hstands, hnames⟩ := (stands_ofHash hash seed).draws hdraws
    cases hfresh : fresh s with
    | some found => exact ⟨is ++ [found.1], found.2, hdraws.append (.one hfresh), by simp [hlength]⟩
    | none =>
      -- Then all candidates would be among the names of the run, and those are too few.
      have hgiven : candidates (hash seed) bound ⊆ firstsBy id (candidates (hash seed) m) := by
        intro name hname
        obtain ⟨k, -, rfl⟩ := List.mem_map.mp hname
        have hissued := fresh_eq_none_iff.mp hfresh (.ofNat k)
        rw [hstands.digest_eq, hstands.issued] at hissued
        exact mem_firstsBy_id.mpr hissued
      have hle := (List.subperm_of_subset hnodup hgiven).length_le
      have hcount := congrArg List.length hnames
      simp only [List.length_map, List.length_append, candidates, List.length_range, firstsBy,
        List.range_zero, List.map_nil, List.foldl_nil, List.length_nil] at hle hcount
      omega

theorem nodup_candidates_spread :
    (candidates (fun c => spread c.toNat) (52 * 52 * 52 * 52)).Nodup := by
  refine List.Nodup.map_on (fun a ha b hb heq => ?_) List.nodup_range
  rw [List.mem_range] at ha hb
  beta_reduce at heq
  rw [UInt64.toNat_ofNat_of_lt' (by rw [UInt64.size]; omega),
    UInt64.toNat_ofNat_of_lt' (by rw [UInt64.size]; omega)] at heq
  exact spell_spread_injOn ha hb heq

/-- A run that takes all names there are, after which the next call does not return. -/
theorem names_differ_until_exhausted_spread :
    ∃ is s, Draws (ofHash (fun _ c => spread c.toNat) 7) is s ∧ is.length = 7311616 ∧ is.Nodup ∧
      s.issued.size = 7311616 ∧ fresh s = none := by
  obtain ⟨is, s, hdraws, hlength⟩ :=
    exists_draws_of_nodup (fun _ c => spread c.toNat) 7 nodup_candidates_spread _ (Nat.le_refl _)
  obtain ⟨nth, hall⟩ := names_differ_until_exhausted fun _ c => spread c.toNat
  obtain ⟨hsize, -, hnodup, -, -, -, hfresh, -, hexhausted⟩ := hall 7 is s hdraws
  exact ⟨is, s, hdraws, hlength, hnodup, hsize.trans hlength, hfresh.mpr (hexhausted hlength)⟩

end BytecodeCompiler.HashedNames
