import BytecodeCompiler.Proofs.Emission.TwoPass

-- Patching. While a program is written, the jumps to labels that are not known yet hold zeros
-- and wait as marks. When labels become known, going through the marks turns the code into what
-- it would be if the labels had been known from the start.

namespace BytecodeCompiler

/-! ## Two bytes in the middle -/

theorem Code.hasSlot_of_toList {code : Code} {front back : List UInt8} {a b : UInt8}
    (h : code.toList = front ++ a :: b :: back) : code.hasSlot front.length = true := by
  have hsize : code.size = (front ++ a :: b :: back).length := by rw [← h, Array.length_toList]
  simp only [List.length_append, List.length_cons] at hsize
  simp only [Code.hasSlot, decide_eq_true_eq]
  omega

theorem Code.toList_patch {code : Code} {front back : List UInt8} {a b : UInt8}
    (h : code.toList = front ++ a :: b :: back) (v : UInt16) :
    (code.patch front.length v).toList = front ++ (leBytes 2 v.toNat ++ back) := by
  simp only [Code.patch, Array.toList_setIfInBounds, h]
  rw [List.set_append_right _ _ (Nat.le_refl _), Nat.sub_self, List.set_cons_zero,
    List.set_append_right _ _ (Nat.le_add_right _ 1), Nat.add_sub_cancel_left, List.set_cons_succ,
    List.set_cons_zero]
  rfl

/-! ## The jumps of a piece -/

namespace Piece

mutual

/-- The jump operands of a piece, with their offsets when the piece starts at the given one. -/
def slots (start : Nat) : Piece → List Mark
  | .target l => [⟨start, l⟩]
  | .frame inside => slotsAll (start + 3) inside
  | _ => []

def slotsAll (start : Nat) : List Piece → List Mark
  | [] => []
  | p :: ps => p.slots start ++ slotsAll (start + p.size) ps

end

theorem slotsAll_append (start : Nat) (ps qs : List Piece) :
    slotsAll start (ps ++ qs) = slotsAll start ps ++ slotsAll (start + sizeAll ps) qs := by
  induction ps generalizing start with
  | nil => simp only [List.nil_append, slotsAll, sizeAll, Nat.add_zero]
  | cons p ps ih =>
    simp only [List.cons_append, slotsAll, sizeAll, ih, List.append_assoc, Nat.add_assoc]

mutual

theorem map_label_slots (start : Nat) (p : Piece) : (p.slots start).map Mark.label = p.targets := by
  cases p with
  | frame inside => simpa only [slots, targets] using map_label_slotsAll (start + 3) inside
  | place | byte | ident | ty | value | count | target | label => rfl

theorem map_label_slotsAll (start : Nat) (ps : List Piece) :
    (slotsAll start ps).map Mark.label = targetsAll ps := by
  cases ps with
  | nil => rfl
  | cons p ps =>
    simp only [slotsAll, targetsAll, List.map_append, map_label_slots start p,
      map_label_slotsAll (start + p.size) ps]

end

end Piece

/-! ## Known labels -/

/-- What a jump holds: the offset of its label once that is known, and zero before. -/
def filled (labels : List (Ident × UInt16)) (label : Ident) : Nat :=
  ((labels.lookup label).getD 0).toNat

/-- The marks whose labels are not known. -/
def waiting (labels : List (Ident × UInt16)) (ms : List Mark) : List Mark :=
  ms.filter fun m => (labels.lookup m.label).isNone

theorem waiting_append (labels : List (Ident × UInt16)) (ms ns : List Mark) :
    waiting labels (ms ++ ns) = waiting labels ms ++ waiting labels ns :=
  List.filter_append ..

/-- The new table knows what the old one knows. -/
def Extends (new old : List (Ident × UInt16)) : Prop :=
  ∀ l t, old.lookup l = some t → new.lookup l = some t

/-! ## Going through the marks -/

/-- A round over two rows of marks is a round over each, if the first finds all its slots. -/
theorem settle_append (labels : List (Ident × UInt16)) (code : Code) (ms ns : List Mark)
    {code' : Code} {kept : List Mark} (h : settle labels code ms = ⟨code', kept, none⟩) :
    settle labels code (ms ++ ns) =
      ⟨(settle labels code' ns).code, kept ++ (settle labels code' ns).marks,
        (settle labels code' ns).missing⟩ := by
  induction ms generalizing code kept with
  | nil =>
    simp only [settle, Settled.mk.injEq] at h
    obtain ⟨rfl, rfl, -⟩ := h
    rfl
  | cons m ms ih =>
    simp only [List.cons_append, settle] at h ⊢
    cases hlookup : labels.lookup m.label with
    | none =>
      simp only [hlookup, Settled.mk.injEq] at h ⊢
      obtain ⟨hcode, rfl, hmissing⟩ := h
      have hms : settle labels code ms = ⟨code', (settle labels code ms).marks, none⟩ := by
        rw [← hcode, ← hmissing]
      rw [ih code hms]
      exact ⟨rfl, rfl, rfl⟩
    | some target =>
      simp only [hlookup] at h ⊢
      split at h
      · rename_i hslot
        rw [if_pos hslot]
        exact ih _ h
      · simp only [Settled.mk.injEq, reduceCtorEq, and_false] at h

/-- The marks of one jump, gone through with a larger table, fill in its two bytes. -/
theorem settle_target {old new : List (Ident × UInt16)} (hext : Extends new old) (l : Ident)
    (code : Code) (front back : List UInt8)
    (h : code.toList = front ++ (leBytes 2 (filled old l) ++ back)) :
    settle new code (waiting old [⟨front.length, l⟩]) =
      ⟨(front ++ (leBytes 2 (filled new l) ++ back)).toArray,
        waiting new [⟨front.length, l⟩], none⟩ := by
  have hcode : code = (front ++ (leBytes 2 (filled old l) ++ back)).toArray := Array.ext' h
  cases hold : old.lookup l with
  | some t =>
    have hnew : new.lookup l = some t := hext l t hold
    have hfilled : filled old l = filled new l := by simp only [filled, hold, hnew]
    simp [waiting, hold, hnew, settle, hcode, hfilled]
  | none =>
    cases hnew : new.lookup l with
    | none =>
      have hfilled : filled old l = filled new l := by simp only [filled, hold, hnew]
      simp [waiting, hold, hnew, settle, hcode, hfilled]
    | some t =>
      have hslot : code.hasSlot front.length = true := Code.hasSlot_of_toList h
      have hpatch : (code.patch front.length t).toList = front ++ (leBytes 2 t.toNat ++ back) :=
        Code.toList_patch h t
      have hfilled : filled new l = t.toNat := by simp only [filled, hnew, Option.getD_some]
      simp only [waiting, List.filter_cons, hold, hnew, Option.isNone_none, Option.isNone_some,
        if_true, List.filter_nil, settle, hslot, hfilled]
      rw [← hpatch]
      simp

mutual

/-- The marks of a piece, gone through with a larger table, fill in its bytes. -/
theorem settle_slots {old new : List (Ident × UInt16)} (hext : Extends new old) (p : Piece)
    (code : Code) (front back : List UInt8)
    (h : code.toList = front ++ (p.bytes (filled old) ++ back)) :
    settle new code (waiting old (p.slots front.length)) =
      ⟨(front ++ (p.bytes (filled new) ++ back)).toArray,
        waiting new (p.slots front.length), none⟩ := by
  cases p with
  | target l => exact settle_target hext l code front back h
  | frame inside =>
    -- The begin byte and the length belong to the front, the end byte to the back.
    let begin := Opcode.blockBegin.byte :: leBytes 2 (Piece.sizeAll inside + 1)
    have hinside := settle_slotsAll hext inside code (front ++ begin)
      (Opcode.blockEnd.byte :: back) (by simp [begin, h, Piece.bytes])
    have hlength : (front ++ begin).length = front.length + 3 := by simp [begin]
    rw [hlength] at hinside
    simp only [Piece.slots, hinside]
    simp [begin, Piece.bytes]
  | place | byte | ident | ty | value | count | label =>
    have hcode : code = (front ++ (_ ++ back)).toArray := Array.ext' h
    simp only [Piece.slots, waiting, List.filter_nil, settle]
    rw [hcode]
    rfl

theorem settle_slotsAll {old new : List (Ident × UInt16)} (hext : Extends new old)
    (ps : List Piece) (code : Code) (front back : List UInt8)
    (h : code.toList = front ++ (Piece.bytesAll (filled old) ps ++ back)) :
    settle new code (waiting old (Piece.slotsAll front.length ps)) =
      ⟨(front ++ (Piece.bytesAll (filled new) ps ++ back)).toArray,
        waiting new (Piece.slotsAll front.length ps), none⟩ := by
  cases ps with
  | nil =>
    have hcode : code = (front ++ ([] ++ back)).toArray := Array.ext' h
    simp only [Piece.slotsAll, waiting, List.filter_nil, settle]
    rw [hcode]
    rfl
  | cons p ps =>
    have hp := settle_slots hext p code front (Piece.bytesAll (filled old) ps ++ back)
      (by simp [h, Piece.bytesAll])
    have hps := settle_slotsAll hext ps
      (front ++ (p.bytes (filled new) ++ (Piece.bytesAll (filled old) ps ++ back))).toArray
      (front ++ p.bytes (filled new)) back (by simp)
    rw [List.length_append, Piece.length_bytes] at hps
    simp only [Piece.slotsAll, waiting_append, settle_append new code _ _ hp, hps]
    simp [Piece.bytesAll]

end

end BytecodeCompiler
