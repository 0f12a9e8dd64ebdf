import BytecodeCompiler.Proofs.Code.Limits
import BytecodeCompiler.Proofs.Code.RoundTrip
import BytecodeCompiler.Proofs.Code.Spelling

-- Reading a value and writing it again. A reader takes more than a writer would write: texts with
-- wide lengths, flags of any size, types of members that do not agree with the members. All of this
-- is gone once the value is read. What is left can be written but for tuples, whose values are
-- counted as types when they are written and as values when they are read.

namespace BytecodeCompiler

/-! ## What a decoder gives -/

namespace Decoder

/-- Whatever the decoder reads has the property. -/
def Gives {α : Type} (d : Decoder α) (P : α → Prop) : Prop :=
  ∀ code pos a stop, d.readAt code pos = .ok a stop → P a

variable {α β : Type} {d : Decoder α} {P : α → Prop} {Q : β → Prop}

theorem ReadsOnly.gives {R : List UInt8 → α → Prop} (hd : ReadsOnly d R)
    (h : ∀ bs a, R bs a → P a) : Gives d P := by
  intro code pos a stop ha
  obtain ⟨bs, -, -, hR⟩ := hd code pos a stop ha
  exact h bs a hR

theorem Gives.bind {f : α → Decoder β} (hd : Gives d P) (hf : ∀ a, P a → Gives (f a) Q) :
    Gives (d >>= f) Q := by
  intro code pos b stop h
  obtain ⟨a, mid, ha, hb⟩ := bind_eq_ok h
  exact hf a (hd code pos a mid ha) code mid b stop hb

theorem gives_pure {a : α} (h : P a) : Gives (pure a) P := by
  intro code pos b stop hb
  cases hb
  exact h

theorem gives_invalid (detail : String) : Gives (invalid detail) P := by
  intro code pos a stop h
  cases h

theorem Gives.map (f : α → β) (hd : Gives d fun a => Q (f a)) : Gives (do return f (← d)) Q :=
  hd.bind fun _ h => gives_pure h

/-- What is made from anything that was read has the property. -/
theorem gives_made (f : α → β) (h : ∀ a, Q (f a)) : Gives (do return f (← d)) Q :=
  Gives.map f fun _ _ a _ _ => h a

theorem gives_many {count : Nat} (hd : Gives d P) :
    Gives (many d count) fun as => as.length = count ∧ ∀ a ∈ as, P a := by
  induction count with
  | zero => exact gives_pure ⟨rfl, List.forall_mem_nil _⟩
  | succ count ih =>
    refine hd.bind fun a ha => Gives.map (a :: ·) ?_
    intro code pos as stop has
    obtain ⟨hlength, hall⟩ := ih code pos as stop has
    exact ⟨congrArg Nat.succ hlength, List.forall_mem_cons.mpr ⟨ha, hall⟩⟩

/-! ## Texts -/

theorem gives_textLength : Gives textLength fun n => n < 0x8000000000000000 := by
  have hcode : Gives typeCode fun _ => True := fun _ _ _ _ _ => trivial
  refine hcode.bind fun code _ => ?_
  cases code with
  | int8 =>
    refine gives_made Int8.toInt fun n => ?_
    have hlt : n.toInt < 0x80 := n.toInt_lt
    omega
  | int16 =>
    refine gives_made Int16.toInt fun n => ?_
    have hlt : n.toInt < 0x8000 := n.toInt_lt
    omega
  | int => exact gives_made Int64.toInt fun n => n.toInt_lt
  | _ => exact gives_invalid _

/-- However its length was given, a text that was read can be written. -/
theorem gives_text : Gives text fun s => s.utf8ByteSize < 0x8000000000000000 := by
  refine gives_textLength.bind fun len hlen => ?_
  split
  · exact gives_invalid _
  · have htake : Gives (take len.toNat) fun bs => bs.length = len.toNat :=
      (readsOnly_take len.toNat).gives fun _ _ h => h.2
    refine htake.bind fun bs hbs => ?_
    split
    · rename_i s hs
      have hsize : s.utf8ByteSize = len.toNat := by
        rw [← length_textBytes, textBytes_of_ofTextBytes hs, hbs]
      exact gives_pure (by omega)
    · exact gives_invalid _

end Decoder

/-! ## Values that were read -/

namespace Value

theorem mem_partsAll {vs : List Value} {u : Value} :
    u ∈ partsAll vs ↔ ∃ v ∈ vs, u ∈ v.parts := by
  induction vs with
  | nil => simp [partsAll]
  | cons v vs ih => simp [partsAll, ih]

/-- What is known of one part of a value that was read. -/
def WasRead : Value → Prop
  | .spread _ => False
  | .tuple _ => True
  | v => v.Fits

/-- Every part of the value may have been read. -/
def AllRead (v : Value) : Prop := ∀ u ∈ v.parts, u.WasRead

theorem allRead_leaf {v : Value} (hparts : v.parts = [v]) (hv : v.WasRead) : v.AllRead := by
  unfold AllRead
  rw [hparts]
  exact List.forall_mem_singleton.mpr hv

theorem allRead_of_members {v : Value} {values : List Value}
    (hparts : v.parts = v :: partsAll values) (hv : v.WasRead) (h : ∀ u ∈ values, u.AllRead) :
    v.AllRead := by
  unfold AllRead
  rw [hparts, List.forall_mem_cons]
  refine ⟨hv, fun w hw => ?_⟩
  obtain ⟨u, hu, hw⟩ := mem_partsAll.mp hw
  exact h u hu w hw

/-- A value that was read can be written if and only if its tuples are not too long. -/
theorem AllRead.encodable_iff {v : Value} (h : v.AllRead) :
    v.encodable = true ↔ ∀ values, .tuple values ∈ v.parts → values.length ≤ 127 := by
  rw [encodable_iff_fits]
  constructor
  · intro hfits values hmem
    exact hfits _ hmem
  · intro htuples u hu
    have hread := h u hu
    cases u with
    | tuple values => exact htuples values hu
    | spread inner => cases hread
    | _ => exact hread

theorem AllRead.no_spread {v : Value} (h : v.AllRead) (inner : Value) : .spread inner ∉ v.parts :=
  fun hmem => h _ hmem

/-- If there is no spread in a value, there is none behind its first part. -/
theorem no_spread_behind {v : Value} {us : List Value} (hparts : v.parts = v :: us)
    (h : ∀ inner, .spread inner ∉ v.parts) (inner : Value) : .spread inner ∉ us := by
  intro hmem
  apply h inner
  rw [hparts]
  exact List.mem_cons_of_mem _ hmem

mutual

/-- A value with no spread inside is not changed when spreads are left out. -/
theorem withoutSpreads_of_no_spread (v : Value) (h : ∀ inner, .spread inner ∉ v.parts) :
    v.withoutSpreads = v := by
  cases v with
  | tuple values =>
    rw [withoutSpreads, withoutSpreadsAll_of_no_spread values (no_spread_behind rfl h)]
  | struct fields values =>
    rw [withoutSpreads, withoutSpreadsAll_of_no_spread values (no_spread_behind rfl h)]
  | array elem values =>
    rw [withoutSpreads, withoutSpreadsAll_of_no_spread values (no_spread_behind rfl h)]
  | spread inner => exact absurd List.mem_cons_self (h inner)
  | named name fallback =>
    rw [withoutSpreads, withoutSpreads_of_no_spread fallback (no_spread_behind rfl h)]
  | _ => simp only [withoutSpreads]

theorem withoutSpreadsAll_of_no_spread (vs : List Value)
    (h : ∀ inner, .spread inner ∉ partsAll vs) : withoutSpreadsAll vs = vs := by
  cases vs with
  | nil => simp only [withoutSpreadsAll]
  | cons v vs =>
    have hv := withoutSpreads_of_no_spread v fun inner hmem =>
      h inner (List.mem_append_left _ hmem)
    have hvs := withoutSpreadsAll_of_no_spread vs fun inner hmem =>
      h inner (List.mem_append_right _ hmem)
    rw [withoutSpreadsAll, hv, hvs]

end

end Value

namespace Decoder

theorem gives_members {d : Decoder Value} (hd : Gives d Value.AllRead) :
    Gives (members d) fun vs => vs.length ≤ 255 ∧ ∀ v ∈ vs, v.AllRead := by
  have hbyte : Gives byte fun _ => True := fun _ _ _ _ _ => trivial
  refine hbyte.bind fun b _ => ?_
  intro code pos vs stop hvs
  obtain ⟨hlength, hall⟩ := gives_many hd code pos vs stop hvs
  have hlt := b.toNat_lt
  exact ⟨by omega, hall⟩

/-- The contents of a value bring no spread, and keep all limits but that of tuples. The type keeps
the limits of types, as it was read too. -/
theorem gives_contents {d : Decoder Value} (hd : Gives d Value.AllRead) {t : Ty}
    (ht : t.encodable = true) : Gives (contents d t) Value.AllRead := by
  cases t with
  | nil => exact gives_pure (Value.allRead_leaf rfl trivial)
  | bool => exact gives_made Value.bool fun _ => Value.allRead_leaf rfl trivial
  | int => exact gives_made Value.int fun _ => Value.allRead_leaf rfl trivial
  | int8 => exact gives_made Value.int8 fun _ => Value.allRead_leaf rfl trivial
  | int16 => exact gives_made Value.int16 fun _ => Value.allRead_leaf rfl trivial
  | float32 => exact gives_made Value.float32 fun _ => Value.allRead_leaf rfl trivial
  | float64 => exact gives_made Value.float64 fun _ => Value.allRead_leaf rfl trivial
  | complex64 =>
    have hany : Gives float32 fun _ => True := fun _ _ _ _ _ => trivial
    exact hany.bind fun re _ => gives_made (Value.complex64 re) fun _ =>
      Value.allRead_leaf rfl trivial
  | complex128 =>
    have hany : Gives float64 fun _ => True := fun _ _ _ _ _ => trivial
    exact hany.bind fun re _ => gives_made (Value.complex128 re) fun _ =>
      Value.allRead_leaf rfl trivial
  | string =>
    refine Gives.map Value.string ?_
    intro code pos s stop hs
    exact Value.allRead_leaf rfl (gives_text code pos s stop hs)
  | char => exact gives_made Value.char fun _ => Value.allRead_leaf rfl trivial
  | tuple members =>
    -- A byte counts up to 255 elements, and the member types are not looked at. So nothing is
    -- known of the length that would fit the count of a type.
    refine Gives.map Value.tuple ?_
    intro code pos vs stop hvs
    obtain ⟨-, hall⟩ := gives_members hd code pos vs stop hvs
    exact Value.allRead_of_members rfl trivial hall
  | array elem =>
    have helem : elem.AllFit := by
      rw [← Ty.encodable_iff_allFit]
      simpa only [Ty.encodable] using ht
    refine Gives.map (Value.array elem) ?_
    intro code pos vs stop hvs
    obtain ⟨hlength, hall⟩ := gives_members hd code pos vs stop hvs
    exact Value.allRead_of_members rfl ⟨hlength, helem⟩ hall
  | struct fields =>
    have hfields : (Ty.struct fields).AllFit := (Ty.encodable_iff_allFit _).mp ht
    refine Gives.map (Value.struct fields) ?_
    intro code pos vs stop hvs
    obtain ⟨hlength, hall⟩ := gives_members hd code pos vs stop hvs
    exact Value.allRead_of_members rfl ⟨hlength, hfields⟩ hall
  | objRef name =>
    have hname : name.size ≤ 255 := by
      rw [← Ident.encodable_iff]
      simpa only [Ty.encodable] using ht
    refine Gives.map (Value.named name) ?_
    intro code pos v stop hv
    exact List.forall_mem_cons.mpr ⟨hname, hd code pos v stop hv⟩
  | any | union | lambda | ref | ident => exact gives_invalid _

theorem gives_valueWithin (depth : Nat) : Gives (valueWithin depth) Value.AllRead := by
  induction depth with
  | zero =>
    intro code pos v stop h
    cases h
  | succ depth ih =>
    have hty : Gives ty fun t => t.encodable = true := readsOnly_ty.gives fun _ _ h => h.1
    exact hty.bind fun t ht => gives_contents ih ht

theorem gives_value : Gives value Value.AllRead :=
  fun code pos v stop h => gives_valueWithin (code.size - pos) code pos v stop h

end Decoder

/-! ## Read, written and read again -/

/-- A value that was read from any bytes has no spread inside. It can be written to the end of any
buffer if and only if no tuple inside it has more than 127 elements. What is written then is read
back as the same value, whatever comes behind, although it may differ from the bytes that were read
first. -/
theorem value_survives_rewriting {code : Code} {pos stop : Nat} {v : Value}
    (h : Decoder.value.readAt code pos = .ok v stop) :
    (∀ inner, .spread inner ∉ v.parts) ∧
    ∀ buffer : Code,
      ((∃ written, Encoder.value v buffer = .ok () written) ↔
        ∀ values, .tuple values ∈ v.parts → values.length ≤ 127) ∧
      ∀ (written : Code) (tail : List UInt8), Encoder.value v buffer = .ok () written →
        Decoder.value.readAt (written ++ tail) buffer.size = .ok v written.size := by
  have hread : v.AllRead := Decoder.gives_value code pos v stop h
  have hwrites := Encoder.writes_value v
  refine ⟨hread.no_spread, fun buffer => ⟨?_, ?_⟩⟩
  · rw [← hread.encodable_iff]
    exact hwrites.succeedsIff.ok buffer
  · intro written tail hwritten
    obtain ⟨hv, rfl⟩ := hwrites.of_ok hwritten
    have hagain := Decoder.reads_value v hv _ _ (Code.hasAt_append buffer v.bytes tail)
    rwa [Value.withoutSpreads_of_no_spread v hread.no_spread, ← Code.size_append] at hagain

set_option maxRecDepth 4000 in
/-- A flag of 7, a text with a wide length, an array of truth values that holds a number, and a
tuple type with one member for three: written again, the bytes are others, and the value is the
same. A tuple of 128 elements, read behind the type of an empty one, cannot be written again. -/
theorem value_survives_rewriting_spelling :
    let v : Value := .tuple [.bool true, .string "a", .array .bool [.int8 5]]
    let nils : List Value := List.replicate 128 .nil
    (Decoder.value.readAt #[13, 1, 1, 3, 2, 7, 10, 5, 1, 0, 0x61, 12, 2, 1, 4, 5] 0 = .ok v 16 ∧
      Encoder.value v #[] =
        .ok () #[13, 3, 2, 10, 12, 2, 3, 2, 1, 10, 4, 1, 0x61, 12, 2, 1, 4, 5] ∧
      Decoder.value.readAt #[13, 3, 2, 10, 12, 2, 3, 2, 1, 10, 4, 1, 0x61, 12, 2, 1, 4, 5] 0 =
        .ok v 18) ∧
    Decoder.value.readAt ((#[13, 0, 128] : Code) ++ List.replicate 128 (1 : UInt8)) 0 =
      .ok (.tuple nils) 131 ∧
    ¬ ∃ written, Encoder.value (.tuple nils) #[] = .ok () written := by
  intro v nils
  have hread : Decoder.value.readAt #[13, 1, 1, 3, 2, 7, 10, 5, 1, 0, 0x61, 12, 2, 1, 4, 5] 0 =
      .ok v 16 := rfl
  have hlong : Decoder.value.readAt ((#[13, 0, 128] : Code) ++ List.replicate 128 (1 : UInt8)) 0 =
      .ok (.tuple nils) 131 := rfl
  obtain ⟨-, hagain⟩ := (value_survives_rewriting hread).2 #[]
  obtain ⟨hwritten, -⟩ := (value_survives_rewriting hlong).2 #[]
  have htoo : ¬ nils.length ≤ 127 := by
    rw [List.length_replicate]
    decide
  exact ⟨⟨hread, rfl, hagain _ [] rfl⟩, hlong,
    fun hok => htoo (hwritten.mp hok nils List.mem_cons_self)⟩

end BytecodeCompiler
