import BytecodeCompiler.Proofs.Code.Reading
import BytecodeCompiler.Proofs.Emission.Visits
import Mathlib.Data.List.Induction
import Mathlib.Data.List.Pairwise
import Mathlib.Data.List.Perm.Basic

-- Jumps and labels in any order. A jump asks for two bytes to hold the offset of a label, and a
-- label may be defined before or after that. Whatever the order is, in the end the bytes of every
-- jump whose label is known hold its offset, the other jumps wait, and all other bytes are as
-- before. What is refused on the way leaves no trace.

namespace BytecodeCompiler

/-! ## Requests -/

/-- What an emission can be asked for about labels. -/
inductive Request where
  /-- The two bytes at a slot are to hold the offset of a label. -/
  | mark (slot : Nat) (name : Ident)
  /-- A label is to stand at an offset. -/
  | label (offset : Nat) (name : Ident)
deriving DecidableEq

namespace Request

/-- The emission after a call, whether the call failed or not. -/
def left {α : Type} : EStateM.Result Fault Emission α → Emission
  | .ok _ e => e
  | .error _ e => e

/-- Answer a request. One that fails is passed over. -/
def serve (e : Emission) : Request → Emission
  | .mark slot name => left (Emitter.mark slot name e)
  | .label offset name => left (Emitter.label offset name e)

/-- Answer requests in order. -/
def serveAll (e : Emission) (rs : List Request) : Emission := rs.foldl serve e

/-- The mark of a request for one. -/
def mark? : Request → Option Mark
  | .mark slot name => some ⟨slot, name⟩
  | .label .. => none

/-- The marks that are asked for, in order. -/
def marks (rs : List Request) : List Mark := rs.filterMap mark?

/-- The offset at which the request defines a label, if it fits two bytes. -/
def target? (name : Ident) : Request → Option UInt16
  | .label offset l => if l = name ∧ offset < 0x10000 then some (UInt16.ofNat offset) else none
  | .mark .. => none

/-- The offset of a label: the first that was asked for and fits two bytes. -/
def offset? (rs : List Request) (name : Ident) : Option UInt16 := rs.findSome? (target? name)

/-- The marks whose labels were not defined, in the order in which they were asked for. -/
def pending (rs : List Request) : List Mark :=
  (marks rs).filter fun m => (offset? rs m.label).isNone

theorem serveAll_concat (e : Emission) (rs : List Request) (r : Request) :
    serveAll e (rs ++ [r]) = serve (serveAll e rs) r := by
  simp [serveAll]

theorem marks_concat_mark (rs : List Request) (slot : Nat) (name : Ident) :
    marks (rs ++ [.mark slot name]) = marks rs ++ [⟨slot, name⟩] := List.filterMap_append

theorem marks_concat_label (rs : List Request) (offset : Nat) (name : Ident) :
    marks (rs ++ [.label offset name]) = marks rs := by
  simp [marks, mark?]

theorem offset?_concat_mark (rs : List Request) (slot : Nat) (name : Ident) :
    offset? (rs ++ [.mark slot name]) = offset? rs := by
  funext l
  simp [offset?, target?]

theorem offset?_concat_label (rs : List Request) (offset : Nat) (name l : Ident) :
    offset? (rs ++ [.label offset name]) l =
      (offset? rs l).or (target? l (.label offset name)) := by
  rw [offset?, List.findSome?_append]
  simp [offset?]

end Request

/-! ## The bytes of a mark -/

namespace Mark

/-- The byte at the offset belongs to the mark. -/
def Covers (m : Mark) (i : Nat) : Prop := m.slot ≤ i ∧ i < m.slot + 2

/-- The marks have no byte in common. -/
def Apart (m n : Mark) : Prop := m.slot + 2 ≤ n.slot ∨ n.slot + 2 ≤ m.slot

instance (m n : Mark) : Decidable (m.Apart n) := inferInstanceAs (Decidable (_ ∨ _))

instance : Std.Symm Apart := ⟨fun _ _ => Or.symm⟩

theorem Apart.not_covers {m n : Mark} (h : m.Apart n) {i : Nat} (hi : m.Covers i) :
    ¬ n.Covers i := by
  unfold Apart at h
  unfold Covers at hi ⊢
  omega

end Mark

namespace Code

theorem getElem?_patch_of_not_covers (code : Code) {m : Mark} (value : UInt16) {i : Nat}
    (hi : ¬ m.Covers i) : (code.patch m.slot value)[i]? = code[i]? := by
  unfold Mark.Covers at hi
  unfold patch
  rw [Array.getElem?_setIfInBounds_ne (by omega), Array.getElem?_setIfInBounds_ne (by omega)]

/-- Two bytes stand at an offset if each stands at its own. -/
theorem hasAt_pair_iff {code : Code} {pos : Nat} {a b : UInt8} :
    code.HasAt pos [a, b] ↔ code[pos]? = some a ∧ code[pos + 1]? = some b := by
  constructor
  · exact fun h => ⟨h.head, h.tail.head⟩
  · rintro ⟨ha, hb⟩
    obtain ⟨hlt, hb⟩ := Array.getElem?_eq_some_iff.mp hb
    obtain ⟨_, ha⟩ := Array.getElem?_eq_some_iff.mp ha
    refine ⟨code.toList.take pos, code.toList.drop (pos + 2), ?_, ?_⟩
    · have hlength : pos + 1 < code.toList.length := by simpa using hlt
      conv_lhs => rw [← List.take_append_drop pos code.toList]
      rw [List.drop_eq_getElem_cons (by omega), List.drop_eq_getElem_cons hlength]
      simp [ha, hb]
    · simp
      omega

/-- What is patched holds the value, lower byte first. -/
theorem hasAt_patch {code : Code} {slot : Nat} (value : UInt16) (h : slot + 2 ≤ code.size) :
    (code.patch slot value).HasAt slot (leBytes 2 value.toNat) := by
  refine hasAt_pair_iff.mpr ⟨?_, ?_⟩
  · unfold patch
    rw [Array.getElem?_setIfInBounds_ne (by omega),
      Array.getElem?_setIfInBounds_self_of_lt (by omega)]
  · unfold patch
    rw [Array.getElem?_setIfInBounds_self_of_lt (by simp; omega)]

/-- Bytes that are the same in two codes hold the same. -/
theorem HasAt.of_covers {code code' : Code} {m : Mark} {value : UInt16}
    (h : code.HasAt m.slot (leBytes 2 value.toNat))
    (hsame : ∀ i, m.Covers i → code'[i]? = code[i]?) :
    code'.HasAt m.slot (leBytes 2 value.toNat) := by
  obtain ⟨ha, hb⟩ := hasAt_pair_iff.mp h
  refine hasAt_pair_iff.mpr ⟨?_, ?_⟩
  · rw [hsame _ ⟨Nat.le_refl _, by omega⟩, ha]
  · rw [hsame _ ⟨by omega, by omega⟩, hb]

end Code

/-! ## Codes with their jumps filled in -/

/-- The second code is the first one with the known labels filled in at their marks, and is the
same everywhere else. -/
structure Resolved (known : Ident → Option UInt16) (code : Code) (ms : List Mark) (code' : Code) :
    Prop where
  size : code'.size = code.size
  held : ∀ m ∈ ms, ∀ target, known m.label = some target →
    code'.HasAt m.slot (leBytes 2 target.toNat)
  others : ∀ i, (∀ m ∈ ms, (known m.label).isSome → ¬ m.Covers i) → code'[i]? = code[i]?

namespace Resolved

variable {known known' : Ident → Option UInt16} {code code₁ code₂ : Code} {ms ms' : List Mark}

/-- There is at most one such code, and the order of the marks does not matter. -/
theorem unique (h₁ : Resolved known code ms code₁) (h₂ : Resolved known code ms' code₂)
    (hsame : ∀ m, m ∈ ms ↔ m ∈ ms') : code₁ = code₂ := by
  apply Array.ext_getElem?
  intro i
  by_cases hcovered : ∃ m ∈ ms, (known m.label).isSome ∧ m.Covers i
  · obtain ⟨m, hm, hknown, hi⟩ := hcovered
    obtain ⟨target, htarget⟩ := Option.isSome_iff_exists.mp hknown
    obtain ⟨hlow₁, hhigh₁⟩ := Code.hasAt_pair_iff.mp (h₁.held m hm target htarget)
    obtain ⟨hlow₂, hhigh₂⟩ := Code.hasAt_pair_iff.mp (h₂.held m ((hsame m).mp hm) target htarget)
    obtain rfl | rfl : i = m.slot ∨ i = m.slot + 1 := by
      unfold Mark.Covers at hi
      omega
    · rw [hlow₁, hlow₂]
    · rw [hhigh₁, hhigh₂]
  · have hfree : ∀ m ∈ ms, (known m.label).isSome → ¬ m.Covers i :=
      fun m hm hknown hi => hcovered ⟨m, hm, hknown, hi⟩
    rw [h₁.others i hfree, h₂.others i fun m hm => hfree m ((hsame m).mpr hm)]

/-- Marks whose labels are not known change nothing. -/
theorem nothing (hms : ∀ m ∈ ms, known m.label = none) : Resolved known code ms code where
  size := rfl
  held m hm target htarget := by
    rw [hms m hm] at htarget
    cases htarget
  others _ _ := rfl

/-- First the labels that were known are filled in, and then the marks that still wait are gone
through with more labels. As the marks are apart, the second round leaves alone what the first one
filled in. -/
theorem trans (hapart : ms.Pairwise Mark.Apart)
    (hmore : ∀ name target, known name = some target → known' name = some target)
    (h₁ : Resolved known code ms code₁)
    (h₂ : Resolved known' code₁ (ms.filter fun m => (known m.label).isNone) code₂) :
    Resolved known' code ms code₂ where
  size := h₂.size.trans h₁.size
  held m hm target htarget := by
    cases hold : known m.label with
    | none => exact h₂.held m (List.mem_filter.mpr ⟨hm, by simp [hold]⟩) target htarget
    | some target' =>
      obtain rfl : target' = target := Option.some.inj ((hmore _ _ hold).symm.trans htarget)
      refine (h₁.held m hm target' hold).of_covers fun i hi => h₂.others i fun n hn _ => ?_
      obtain ⟨hn, hwaits⟩ := List.mem_filter.mp hn
      have hne : m ≠ n := by
        rintro rfl
        simp [hold] at hwaits
      exact (hapart.forall hm hn hne).not_covers hi
  others i hfree := by
    have hsecond : code₂[i]? = code₁[i]? := by
      refine h₂.others i fun m hm => hfree m (List.mem_filter.mp hm).1
    rw [hsecond]
    refine h₁.others i fun m hm hknown => hfree m hm ?_
    obtain ⟨target, htarget⟩ := Option.isSome_iff_exists.mp hknown
    rw [hmore _ _ htarget]
    rfl

end Resolved

/-- Going through marks that are in the code and apart fills in those whose labels are known and
keeps the others. -/
theorem settle_resolves (labels : List (Ident × UInt16)) (code : Code) (ms : List Mark)
    (hinside : ∀ m ∈ ms, m.slot + 2 ≤ code.size) (hapart : ms.Pairwise Mark.Apart) :
    ∃ code', settle labels code ms = ⟨code', waiting labels ms, none⟩ ∧
      Resolved (labels.lookup ·) code ms code' := by
  induction ms generalizing code with
  | nil => exact ⟨code, rfl, .nothing (List.forall_mem_nil _)⟩
  | cons m ms ih =>
    obtain ⟨hfirst, hothers⟩ := List.forall_mem_cons.mp hinside
    obtain ⟨hm, hms⟩ := List.pairwise_cons.mp hapart
    cases hlookup : labels.lookup m.label with
    | none =>
      obtain ⟨code', hsettle, hcode'⟩ := ih code hothers hms
      refine ⟨code', by simp [settle, waiting, hlookup, hsettle], hcode'.size, ?_, ?_⟩
      · intro n hn target htarget
        rcases List.mem_cons.mp hn with rfl | hn
        · rw [hlookup] at htarget
          cases htarget
        · exact hcode'.held n hn target htarget
      · exact fun i hfree => hcode'.others i fun n hn => hfree n (List.mem_cons_of_mem _ hn)
    | some target =>
      have hsize : (code.patch m.slot target).size = code.size := Code.size_patch _ _ _
      obtain ⟨code', hsettle, hcode'⟩ := ih (code.patch m.slot target)
        (fun n hn => by rw [hsize]; exact hothers n hn) hms
      have hslot : code.hasSlot m.slot = true := by simpa [Code.hasSlot] using hfirst
      refine ⟨code', by simp [settle, waiting, hlookup, hslot, hsettle], hcode'.size.trans hsize,
        ?_, ?_⟩
      · intro n hn target' htarget
        rcases List.mem_cons.mp hn with rfl | hn
        · obtain rfl : target = target' := Option.some.inj (hlookup.symm.trans htarget)
          refine (Code.hasAt_patch target hfirst).of_covers fun i hi => ?_
          exact hcode'.others i fun k hk _ => (hm k hk).not_covers hi
        · exact hcode'.held n hn target' htarget
      · intro i hfree
        have hi : ¬ m.Covers i := hfree m List.mem_cons_self (by rw [hlookup]; rfl)
        rw [hcode'.others i fun n hn => hfree n (List.mem_cons_of_mem _ hn),
          Code.getElem?_patch_of_not_covers _ _ hi]

/-! ## What requests lead to -/

namespace Request

variable {code : Code} {map : SourceMap} {rs : List Request}

/-- The marks that are asked for are in the code, and no two have a byte in common. -/
structure Placed (code : Code) (rs : List Request) : Prop where
  inside : ∀ m ∈ marks rs, m.slot + 2 ≤ code.size
  apart : (marks rs).Pairwise Mark.Apart

theorem Placed.left {rs' : List Request} (h : Placed code (rs ++ rs')) : Placed code rs := by
  have hsub : (marks rs).Sublist (marks (rs ++ rs')) :=
    (List.sublist_append_left rs rs').filterMap mark?
  exact ⟨fun m hm => h.inside m (hsub.subset hm), h.apart.sublist hsub⟩

theorem Placed.perm {rs' : List Request} (h : Placed code rs)
    (hmarks : (marks rs').Perm (marks rs)) : Placed code rs' :=
  ⟨fun m hm => h.inside m (hmarks.subset hm), h.apart.perm hmarks.symm Or.symm⟩

/-- The emission is what the requests lead to, if nothing was known before the first one. -/
structure Answered (code : Code) (map : SourceMap) (rs : List Request) (e : Emission) : Prop where
  filled : Resolved (offset? rs) code (marks rs) e.code
  unmapped : e.map = map
  known : ∀ name, e.labels.lookup name = offset? rs name
  waits : e.marks.toList = pending rs

/-- A request for a label that is known is filled in at once, and any other one waits. -/
theorem Answered.mark {e : Emission} (h : Answered code map rs e) {slot : Nat} {name : Ident}
    (hplaced : Placed code (rs ++ [.mark slot name])) :
    ∃ e', Emitter.mark slot name e = .ok (offset? rs name).isSome e' ∧
      Answered code map (rs ++ [.mark slot name]) e' := by
  obtain ⟨code₁, map₁, labels, waits⟩ := e
  have hoffset := offset?_concat_mark rs slot name
  have hmarks := marks_concat_mark rs slot name
  have hinside : slot + 2 ≤ code.size := hplaced.inside ⟨slot, name⟩ (by simp [hmarks])
  have hapart := hplaced.apart
  rw [hmarks] at hapart
  obtain ⟨-, -, hlast⟩ := List.pairwise_append.mp hapart
  have hlabels := h.known name
  cases hknown : offset? rs name with
  | some target =>
    have hslot : code₁.hasSlot slot = true := by
      simpa [Code.hasSlot, h.filled.size] using hinside
    have hpatched : (code₁.patch slot target).size = code₁.size := Code.size_patch _ _ _
    refine ⟨⟨code₁.patch slot target, map₁, labels, waits⟩, ?_, ?_, h.unmapped, ?_, ?_⟩
    · simp only at hlabels
      simp [Emitter.mark, hlabels, hknown, hslot]
    · rw [hoffset, hmarks]
      refine ⟨hpatched.trans h.filled.size, fun m hm target' htarget => ?_, fun i hfree => ?_⟩
      · rcases List.mem_append.mp hm with hm | hm
        · refine (h.filled.held m hm target' htarget).of_covers fun i hi => ?_
          have hclear := (hlast m hm ⟨slot, name⟩ List.mem_cons_self).not_covers hi
          exact Code.getElem?_patch_of_not_covers code₁ target hclear
        · obtain rfl := List.mem_singleton.mp hm
          obtain rfl : target = target' := Option.some.inj (hknown.symm.trans htarget)
          exact Code.hasAt_patch target (by rw [h.filled.size]; exact hinside)
      · have hi : ¬ (⟨slot, name⟩ : Mark).Covers i :=
          hfree ⟨slot, name⟩ (by simp) (by simp [hknown])
        rw [← h.filled.others i fun m hm => hfree m (List.mem_append_left _ hm)]
        exact Code.getElem?_patch_of_not_covers code₁ target hi
    · rw [hoffset]
      exact h.known
    · rw [pending, hoffset, hmarks]
      simpa [List.filter_append, hknown, pending] using h.waits
  | none =>
    refine ⟨⟨code₁, map₁, labels, waits.push ⟨slot, name⟩⟩, ?_, ?_, h.unmapped, ?_, ?_⟩
    · simp only at hlabels
      simp [Emitter.mark, hlabels, hknown]
    · rw [hoffset, hmarks]
      refine ⟨h.filled.size, fun m hm target htarget => ?_, fun i hfree => ?_⟩
      · rcases List.mem_append.mp hm with hm | hm
        · exact h.filled.held m hm target htarget
        · obtain rfl := List.mem_singleton.mp hm
          rw [hknown] at htarget
          cases htarget
      · exact h.filled.others i fun m hm => hfree m (List.mem_append_left _ hm)
    · rw [hoffset]
      exact h.known
    · have hwaits : waits.toList = pending rs := h.waits
      rw [pending, hoffset, hmarks, Array.toList_push, hwaits]
      simp [List.filter_append, hknown, pending]

/-- A label that is known, or whose offset does not fit, is refused and leaves no trace. -/
theorem Answered.refused {e : Emission} (h : Answered code map rs e) {offset : Nat} {name : Ident} :
    ((offset? rs name).isSome →
      Emitter.label offset name e = .error (.duplicateLabel name) e) ∧
    ((offset? rs name).isNone → 0x10000 ≤ offset →
      Emitter.label offset name e = .error (.labelOutOfRange name offset) e) := by
  obtain ⟨code₁, map₁, labels, waits⟩ := e
  have hlabels : labels.lookup name = offset? rs name := h.known name
  constructor
  · intro hknown
    simp [Emitter.label, hlabels, hknown]
  · intro hnew hrange
    have hnone : offset? rs name = none := Option.isNone_iff_eq_none.mp hnew
    have hlarge : ¬ offset < 0x10000 := by omega
    simp [Emitter.label, hlabels, hnone, hlarge]

/-- Asking again for what is refused changes nothing about what the requests lead to. -/
theorem Answered.passed {e : Emission} (h : Answered code map rs e) {offset : Nat} {name : Ident}
    (hrefused : (offset? rs name).isSome ∨ 0x10000 ≤ offset) :
    Answered code map (rs ++ [.label offset name]) e := by
  have hoffset : offset? (rs ++ [.label offset name]) = offset? rs := by
    funext l
    rw [offset?_concat_label]
    cases hl : offset? rs l with
    | some target => rfl
    | none =>
      have hother : ¬ (name = l ∧ offset < 0x10000) := by
        rintro ⟨rfl, hsmall⟩
        rcases hrefused with hknown | hlarge
        · simp [hl] at hknown
        · omega
      simp [target?, hother]
  have hmarks := marks_concat_label rs offset name
  refine ⟨?_, h.unmapped, ?_, ?_⟩
  · rw [hoffset, hmarks]
    exact h.filled
  · rw [hoffset]
    exact h.known
  · rw [pending, hoffset, hmarks]
    exact h.waits

/-- A new label is known from then on, and the marks that wait for it are filled in. -/
theorem Answered.label {e : Emission} (h : Answered code map rs e) {offset : Nat} {name : Ident}
    (hplaced : Placed code rs) (hnew : (offset? rs name).isNone) (hrange : offset < 0x10000) :
    ∃ e', Emitter.label offset name e = .ok () e' ∧
      Answered code map (rs ++ [.label offset name]) e' := by
  obtain ⟨code₁, map₁, labels, waits⟩ := e
  have hnone : offset? rs name = none := Option.isNone_iff_eq_none.mp hnew
  have hlabels : ∀ l, labels.lookup l = offset? rs l := h.known
  have hwaits : waits.toList = pending rs := h.waits
  have hsize : code₁.size = code.size := h.filled.size
  have hknown : ∀ l, ((name, UInt16.ofNat offset) :: labels).lookup l =
      offset? (rs ++ [.label offset name]) l := by
    intro l
    rw [offset?_concat_label, List.lookup_cons]
    by_cases hl : l = name
    · subst hl
      simp [hnone, target?, hrange]
    · have hne : ¬ (name = l ∧ offset < 0x10000) := fun hand => hl hand.1.symm
      have hbeq : (l == name) = false := by simpa using hl
      simp [hbeq, hlabels, target?, hne]
  have hmore : ∀ l target, offset? rs l = some target →
      offset? (rs ++ [.label offset name]) l = some target := by
    intro l target htarget
    rw [offset?_concat_label, htarget]
    rfl
  have hmarks := marks_concat_label rs offset name
  -- The marks that wait are some of all marks, so they are in the code and apart too.
  have hsub : (pending rs).Sublist (marks rs) := List.filter_sublist
  obtain ⟨code₂, hsettle, hcode₂⟩ := settle_resolves ((name, UInt16.ofNat offset) :: labels) code₁
    (pending rs) (fun m hm => by rw [hsize]; exact hplaced.inside m (hsub.subset hm))
    (hplaced.apart.sublist hsub)
  have htable : (((name, UInt16.ofNat offset) :: labels).lookup ·) =
      offset? (rs ++ [.label offset name]) := funext hknown
  rw [htable] at hcode₂
  refine ⟨⟨code₂, map₁, (name, UInt16.ofNat offset) :: labels,
    (waiting ((name, UInt16.ofNat offset) :: labels) (pending rs)).toArray⟩, ?_, ?_, h.unmapped,
    hknown, ?_⟩
  · simp [Emitter.label, hlabels, hnone, hrange, hwaits, hsettle]
  · rw [hmarks]
    exact h.filled.trans hplaced.apart hmore hcode₂
  · simp only [waiting, hknown, pending, hmarks, List.filter_filter]
    apply List.filter_congr
    intro m _
    cases hl : offset? rs m.label with
    | none => simp
    | some target => simp [hmore _ _ hl]

/-- Nothing is known about the code yet. -/
def fresh (code : Code) (map : SourceMap) : Emission := ⟨code, map, [], #[]⟩

/-- What requests lead to, by induction on how many were answered. -/
theorem answered_serveAll (map : SourceMap) (hplaced : Placed code rs) :
    Answered code map rs (serveAll (fresh code map) rs) := by
  induction rs using List.reverseRecOn with
  | nil => exact ⟨.nothing (List.forall_mem_nil _), rfl, fun _ => rfl, rfl⟩
  | append_singleton rs r ih =>
    have hbefore := ih hplaced.left
    rw [serveAll_concat]
    cases r with
    | mark slot name =>
      obtain ⟨e, hmark, he⟩ := hbefore.mark hplaced
      simp only [serve, hmark, left]
      exact he
    | label offset name =>
      by_cases hknown : (offset? rs name).isSome
      · simp only [serve, hbefore.refused.1 hknown, left]
        exact hbefore.passed (Or.inl hknown)
      · have hnew : (offset? rs name).isNone := by simpa using hknown
        by_cases hrange : offset < 0x10000
        · obtain ⟨e, hlabel, he⟩ := hbefore.label hplaced.left hnew hrange
          simp only [serve, hlabel, left]
          exact he
        · have hlarge : 0x10000 ≤ offset := Nat.le_of_not_lt hrange
          simp only [serve, hbefore.refused.2 hnew hlarge, left]
          exact hbefore.passed (Or.inr hlarge)

/-- An emission can be closed if no mark waits, and otherwise its fault lists the labels of those
that do. -/
theorem Answered.finish {e : Emission} (h : Answered code map rs e) :
    e.finish = if pending rs = [] then .ok map
      else .error (.danglingMarks ((pending rs).map Mark.label)) := by
  obtain ⟨code₁, map₁, labels, waits⟩ := e
  have hwaits : waits.toList = pending rs := h.waits
  have hmap : map₁ = map := h.unmapped
  have hempty : waits.isEmpty = true ↔ pending rs = [] := by
    rw [← hwaits, Array.isEmpty_iff, Array.toList_eq_nil_iff]
  by_cases hnone : pending rs = []
  · rw [if_pos hnone, Emission.finish, if_pos (hempty.mpr hnone), hmap]
  · rw [if_neg hnone, Emission.finish, if_neg (mt hempty.mp hnone), hwaits]

end Request

open Request

/-- Labels are resolved in any order. Take any code and any requests whose marks are in the code
and apart. After them, every mark whose label was defined holds its offset, the marks that wait are
the others, in order, and no other byte has changed. On the way, a mark is filled in at once if its
label is known. A label that is known, or whose offset does not fit two bytes, is refused with
nothing changed, and every other label is taken. So what the requests lead to does not depend on how
marks and labels follow each other, and closing fails just when a mark waits. -/
theorem labels_resolved_in_any_order (code : Code) (map : SourceMap) (rs : List Request)
    (hplaced : Placed code rs) :
    let e := serveAll (fresh code map) rs
    (∀ name, e.labelOffset? name = offset? rs name) ∧
    (∀ m ∈ marks rs, ∀ target, offset? rs m.label = some target →
      e.code.HasAt m.slot (leBytes 2 target.toNat)) ∧
    e.marks.toList = pending rs ∧
    e.code.size = code.size ∧
    (∀ i, (∀ m ∈ marks rs, (offset? rs m.label).isSome → ¬ m.Covers i) → e.code[i]? = code[i]?) ∧
    (∀ before after slot name, rs = before ++ .mark slot name :: after →
      ∃ e', Emitter.mark slot name (serveAll (fresh code map) before) =
        .ok (offset? before name).isSome e') ∧
    (∀ before after offset name, rs = before ++ .label offset name :: after →
      let before' := serveAll (fresh code map) before
      ((offset? before name).isSome →
        Emitter.label offset name before' = .error (.duplicateLabel name) before') ∧
      ((offset? before name).isNone → 0x10000 ≤ offset →
        Emitter.label offset name before' = .error (.labelOutOfRange name offset) before') ∧
      ((offset? before name).isNone → offset < 0x10000 →
        ∃ e', Emitter.label offset name before' = .ok () e')) ∧
    (∀ rs', (marks rs').Perm (marks rs) → (∀ name, offset? rs' name = offset? rs name) →
      let e' := serveAll (fresh code map) rs'
      e'.code = e.code ∧ (∀ name, e'.labelOffset? name = e.labelOffset? name) ∧
      e'.marks.toList.Perm e.marks.toList ∧ e'.map = e.map) ∧
    e.finish = if pending rs = [] then .ok map
      else .error (.danglingMarks ((pending rs).map Mark.label)) := by
  intro e
  have he : Answered code map rs e := answered_serveAll map hplaced
  refine ⟨he.known, he.filled.held, he.waits, he.filled.size, he.filled.others, ?_, ?_, ?_,
    he.finish⟩
  · rintro before after slot name rfl
    have hmark : Placed code (before ++ [.mark slot name]) := by
      rw [List.append_cons] at hplaced
      exact hplaced.left
    obtain ⟨e', hanswer, -⟩ := (answered_serveAll map hmark.left).mark hmark
    exact ⟨e', hanswer⟩
  · rintro before after offset name rfl
    have hbefore := answered_serveAll map hplaced.left
    refine ⟨hbefore.refused.1, hbefore.refused.2, fun hnew hrange => ?_⟩
    obtain ⟨e', hlabel, -⟩ := hbefore.label hplaced.left hnew hrange
    exact ⟨e', hlabel⟩
  · intro rs' hmarks hoffsets e'
    have hoffset : offset? rs' = offset? rs := funext hoffsets
    have he' : Answered code map rs' e' := answered_serveAll map (hplaced.perm hmarks)
    have hfilled := he'.filled
    rw [hoffset] at hfilled
    refine ⟨hfilled.unique he.filled fun m => hmarks.mem_iff, fun name => ?_, ?_,
      he'.unmapped.trans he.unmapped.symm⟩
    · exact (he'.known name).trans ((hoffsets name).trans (he.known name).symm)
    · rw [he'.waits, he.waits, pending, pending, hoffset]
      exact hmarks.filter _

/-- Of two jumps one finds its label, which is refused before at an offset that is too large and
afterwards at another one. The same comes about when the jumps are asked for the other way round and
the label in between. -/
theorem labels_resolved_in_any_order_reversed :
    let code : Code := #[20, 0, 0, 20, 0, 0]
    let rs : List Request := [.mark 1 (.name "top"), .label 70000 (.name "top"),
      .label 5 (.name "top"), .label 6 (.name "top"), .mark 4 (.name "end")]
    let rs' : List Request := [.mark 4 (.name "end"), .label 5 (.name "top"), .mark 1 (.name "top")]
    Placed code rs ∧
    (serveAll (fresh code .empty) rs).code = #[20, 5, 0, 20, 0, 0] ∧
    (serveAll (fresh code .empty) rs').code = #[20, 5, 0, 20, 0, 0] ∧
    (serveAll (fresh code .empty) rs).finish = .error (.danglingMarks [.name "end"]) := by
  intro code rs rs'
  have hplaced : Placed code rs := ⟨by decide, by decide⟩
  have hcode : (serveAll (fresh code .empty) rs).code = #[20, 5, 0, 20, 0, 0] := by decide
  obtain ⟨-, -, -, -, -, -, -, horder, hfinish⟩ :=
    labels_resolved_in_any_order code .empty rs hplaced
  obtain ⟨hcode', -⟩ := horder rs' (by decide) fun name => by
    by_cases hname : .name "top" = name <;>
      simp [rs, rs', offset?, List.findSome?_cons, target?, hname]
  exact ⟨hplaced, hcode, hcode'.trans hcode, hfinish⟩

end BytecodeCompiler
