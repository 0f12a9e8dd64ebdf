import BytecodeCompiler.Code.Decode
import BytecodeCompiler.Proofs.Code.Written

-- Reading back what was written. A decoder reads some bytes as a value when, wherever the
-- bytes stand in any code, it gives the value and stops right behind them. Every decoder reads
-- the bytes of `Written` as what they were written for.

namespace BytecodeCompiler

/-! ## Bytes at an offset -/

/-- The bytes stand in the code at the offset. -/
def Code.HasAt (code : Code) (pos : Nat) (bs : List UInt8) : Prop :=
  ∃ front back, code.toList = front ++ (bs ++ back) ∧ front.length = pos

namespace Code

variable {code : Code} {pos : Nat} {bs cs : List UInt8}

theorem HasAt.left (h : code.HasAt pos (bs ++ cs)) : code.HasAt pos bs := by
  obtain ⟨front, back, hcode, hpos⟩ := h
  exact ⟨front, cs ++ back, by rw [hcode, List.append_assoc], hpos⟩

theorem HasAt.right (h : code.HasAt pos (bs ++ cs)) : code.HasAt (pos + bs.length) cs := by
  obtain ⟨front, back, hcode, hpos⟩ := h
  exact ⟨front ++ bs, back, by simp [hcode], by simp [hpos]⟩

theorem HasAt.tail {b : UInt8} (h : code.HasAt pos (b :: bs)) : code.HasAt (pos + 1) bs :=
  HasAt.right (show code.HasAt pos ([b] ++ bs) from h)

theorem HasAt.end_le (h : code.HasAt pos bs) : pos + bs.length ≤ code.size := by
  obtain ⟨front, back, hcode, hpos⟩ := h
  have hsize : code.size = (front ++ (bs ++ back)).length := by rw [← hcode, Array.length_toList]
  simp only [List.length_append] at hsize
  omega

theorem HasAt.extract (h : code.HasAt pos bs) :
    (code.extract pos (pos + bs.length)).toList = bs := by
  obtain ⟨front, back, hcode, hpos⟩ := h
  rw [Array.toList_extract, hcode, List.extract_eq_take_drop, ← hpos, List.drop_left]
  simp

theorem HasAt.head {b : UInt8} (h : code.HasAt pos (b :: bs)) : code[pos]? = some b := by
  obtain ⟨front, back, hcode, hpos⟩ := h
  rw [← Array.getElem?_toList, hcode, ← hpos]
  simp

end Code

/-- What was appended stands behind what was there, whatever follows. -/
theorem Code.hasAt_append (code : Code) (bs tail : List UInt8) :
    Code.HasAt (code ++ bs ++ tail) code.size bs :=
  ⟨code.toList, tail, by simp, Array.length_toList⟩

/-! ## Little-endian numbers and texts -/

theorem leNat_leBytes (width n : Nat) (h : n < Nat.pow 256 width) :
    leNat (leBytes width n) = n := by
  induction width generalizing n with
  | zero =>
    have hzero : n < 1 := h
    simp only [leBytes, leNat]
    omega
  | succ width ih =>
    have hmul : n < Nat.pow 256 width * 256 := h
    have hdiv : n / 256 < Nat.pow 256 width := Nat.div_lt_of_lt_mul (by omega)
    simp only [leBytes, leNat, ih _ hdiv, UInt8.toNat_ofNat']
    omega

theorem length_textBytes (s : String) : (textBytes s).length = s.utf8ByteSize := by
  simp [textBytes]

theorem ofTextBytes_textBytes (s : String) : ofTextBytes? (textBytes s) = some s := by
  have hdata : (⟨(textBytes s).toArray⟩ : ByteArray) = s.toByteArray := by simp [textBytes]
  rw [ofTextBytes?, hdata, String.fromUTF8?, dif_pos s.isValidUTF8]
  rfl

theorem textBytes_singleton (c : Char) :
    textBytes (String.singleton c) = String.utf8EncodeChar c := by
  simp [textBytes, List.utf8Encode_singleton]

/-! ## Decoders that read -/

theorem Source.code_ofCode (code : Code) : (Source.ofCode code).code = code := rfl

theorem Source.run_takeFrom (code : Code) (n pos : Nat) :
    (Source.takeFrom code n).run pos =
      if pos + n ≤ code.size then .ok (code.extract pos (pos + n)).toList (pos + n)
      else .error (.unexpectedEnd pos) pos := by
  change (if pos + n ≤ code.size then _ else _ : EStateM Fault Nat _).run pos = _
  split
  · rfl
  · rfl

namespace Decoder

/-- Wherever the bytes stand, the decoder gives the value and stops behind them. -/
def Reads {α : Type} (d : Decoder α) (bs : List UInt8) (a : α) : Prop :=
  ∀ code pos, Code.HasAt code pos bs → d.readAt code pos = .ok a (pos + bs.length)

section Sequences

variable {α β : Type} {d : Decoder α} {a : α} {bs cs : List UInt8}

theorem readAt_bind_of_ok {f : α → Decoder β} {code : Code} {pos pos' : Nat}
    (h : d.readAt code pos = .ok a pos') :
    (d >>= f).readAt code pos = (f a).readAt code pos' := bind_of_ok h

theorem readAt_position_bind (f : Nat → Decoder β) (code : Code) (pos : Nat) :
    (position >>= f).readAt code pos = (f pos).readAt code pos := rfl

theorem readAt_read_bind (f : Source → Decoder β) (code : Code) (pos : Nat) :
    (read >>= f).readAt code pos = (f (.ofCode code)).readAt code pos := rfl

theorem readAt_remaining_bind (f : Nat → Decoder β) (code : Code) (pos : Nat) :
    (remaining >>= f).readAt code pos = (f (code.size - pos)).readAt code pos := rfl

theorem Reads.bind {f : α → Decoder β} {b : β} (hd : Reads d bs a) (hf : Reads (f a) cs b) :
    Reads (d >>= f) (bs ++ cs) b := by
  intro code pos h
  rw [readAt_bind_of_ok (hd code pos h.left), hf code _ h.right, List.length_append, Nat.add_assoc]

/-- A look at the position costs nothing. -/
theorem Reads.positioned {f : Nat → Decoder β} {b : β} (h : ∀ pos, Reads (f pos) bs b) :
    Reads (position >>= f) bs b := by
  intro code pos hat
  rw [readAt_position_bind]
  exact h pos code pos hat

/-- The last step reads nothing more. -/
theorem Reads.last {f : α → Decoder β} {b : β} (hd : Reads d bs a) (hf : Reads (f a) [] b) :
    Reads (d >>= f) bs b := by
  have h := hd.bind hf
  rwa [List.append_nil] at h

theorem reads_pure (a : α) : Reads (pure a) [] a := fun _ _ _ => rfl

theorem Reads.map (f : α → β) (hd : Reads d bs a) : Reads (do return f (← d)) bs (f a) :=
  hd.last (reads_pure (f a))

theorem Reads.cast {b : α} {cs : List UInt8} (hd : Reads d bs a) (hb : bs = cs) (ha : a = b) :
    Reads d cs b := hb ▸ ha ▸ hd

end Sequences

/-! ## Fixed widths -/

theorem readAt_take_of_le {n : Nat} {code : Code} {pos : Nat} (h : pos + n ≤ code.size) :
    (take n).readAt code pos = .ok (code.extract pos (pos + n)).toList (pos + n) := by
  change (Source.takeFrom code n).run pos = _
  rw [Source.run_takeFrom, if_pos h]

theorem readAt_take_of_lt {n : Nat} {code : Code} {pos : Nat} (h : code.size < pos + n) :
    (take n).readAt code pos = .error (.unexpectedEnd pos) pos := by
  change (Source.takeFrom code n).run pos = _
  rw [Source.run_takeFrom, if_neg (Nat.not_le_of_lt h)]

theorem reads_take (bs : List UInt8) : Reads (take bs.length) bs bs := by
  intro code pos h
  rw [readAt_take_of_le h.end_le, h.extract]

theorem reads_nat (width n : Nat) (h : n < Nat.pow 256 width) :
    Reads (nat width) (leBytes width n) n := by
  have htake := reads_take (leBytes width n)
  rw [length_leBytes] at htake
  exact (htake.map leNat).cast rfl (leNat_leBytes width n h)

theorem reads_byte (b : UInt8) : Reads byte [b] b := by
  have h := (reads_nat 1 b.toNat b.toNat_lt).map UInt8.ofNat
  exact h.cast (by simp [leBytes]) (by simp)

theorem reads_bool (b : Bool) : Reads bool [boolByte b] b :=
  ((reads_byte (boolByte b)).map (· != 0)).cast rfl (by cases b <;> rfl)

theorem reads_int8 (n : Int8) : Reads int8 [n.toUInt8] n :=
  ((reads_byte n.toUInt8).map UInt8.toInt8).cast rfl (by simp)

theorem reads_short (n : UInt16) : Reads short (leBytes 2 n.toNat) n :=
  ((reads_nat 2 n.toNat n.toNat_lt).map UInt16.ofNat).cast rfl (by simp)

theorem reads_int16 (n : Int16) : Reads int16 (leBytes 2 n.toUInt16.toNat) n :=
  ((reads_nat 2 _ n.toUInt16.toNat_lt).map fun m => (UInt16.ofNat m).toInt16).cast rfl (by simp)

theorem reads_int (n : Int64) : Reads int (leBytes 8 n.toUInt64.toNat) n :=
  ((reads_nat 8 _ n.toUInt64.toNat_lt).map fun m => (UInt64.ofNat m).toInt64).cast rfl (by simp)

theorem reads_float32 (bits : UInt32) : Reads float32 (leBytes 4 bits.toNat) bits :=
  ((reads_nat 4 _ bits.toNat_lt).map UInt32.ofNat).cast rfl (by simp)

theorem reads_float64 (bits : UInt64) : Reads float64 (leBytes 8 bits.toNat) bits :=
  ((reads_nat 8 _ bits.toNat_lt).map UInt64.ofNat).cast rfl (by simp)

/-! ## Characters -/

set_option maxRecDepth 2000 in
theorem runeWidth_lead : ∀ i : Fin 256,
    runeWidth (UInt8.ofNat i &&& 0x1f ||| 0xc0) = 2 ∧
    runeWidth (UInt8.ofNat i &&& 0x0f ||| 0xe0) = 3 ∧
    runeWidth (UInt8.ofNat i &&& 0x07 ||| 0xf0) = 4 := by
  decide

theorem runeWidth_of_lead (b : UInt8) :
    runeWidth (b &&& 0x1f ||| 0xc0) = 2 ∧ runeWidth (b &&& 0x0f ||| 0xe0) = 3 ∧
    runeWidth (b &&& 0x07 ||| 0xf0) = 4 := by
  simpa using runeWidth_lead ⟨b.toNat, b.toNat_lt⟩

/-- The first byte of a character tells how many bytes the character takes. -/
theorem utf8EncodeChar_eq_cons (c : Char) : ∃ first others,
    String.utf8EncodeChar c = first :: others ∧ runeWidth first = c.utf8Size := by
  rcases c.utf8Size_eq with h | h | h | h
  · refine ⟨_, _, String.utf8EncodeChar_eq_singleton h, ?_⟩
    have hc : c.val ≤ 0x7f := Char.utf8Size_eq_one_iff.mp h
    have hlt : c.val.toUInt8 < 0x80 := by
      have hval : c.val.toNat ≤ 127 := UInt32.le_iff_toNat_le.mp hc
      rw [UInt8.lt_iff_toNat_lt, UInt32.toNat_toUInt8]
      exact Nat.lt_of_le_of_lt (Nat.mod_le _ _) (Nat.lt_succ_of_le hval)
    rw [h, runeWidth, if_pos hlt]
  · exact ⟨_, _, String.utf8EncodeChar_eq_cons_cons h, by rw [h, (runeWidth_of_lead _).1]⟩
  · exact ⟨_, _, String.utf8EncodeChar_eq_cons_cons_cons h, by rw [h, (runeWidth_of_lead _).2.1]⟩
  · exact ⟨_, _, String.utf8EncodeChar_eq_cons_cons_cons_cons h,
      by rw [h, (runeWidth_of_lead _).2.2]⟩

theorem reads_char (c : Char) : Reads char (textBytes (String.singleton c)) c := by
  obtain ⟨first, others, hbytes, hwidth⟩ := utf8EncodeChar_eq_cons c
  have hlen : (textBytes (String.singleton c)).length = runeWidth first := by
    rw [textBytes_singleton, String.length_utf8EncodeChar, hwidth]
  have htake := reads_take (textBytes (String.singleton c))
  rw [hlen] at htake
  intro code pos h
  have hfirst : code[pos]? = some first := by
    rw [textBytes_singleton, hbytes] at h
    exact h.head
  unfold char
  rw [readAt_position_bind, readAt_read_bind]
  simp only [Source.code_ofCode, hfirst]
  rw [readAt_bind_of_ok (htake code pos h), ofTextBytes_textBytes]
  simp only [Option.bind_some, String.toList_singleton, List.head?_cons]
  rfl

/-! ## Codes, texts and identifiers -/

theorem ofByte_byte (c : TypeCode) : TypeCode.ofByte? c.byte = some c := by
  cases c <;> rfl

theorem ofTag_tag (m : IdentMode) : IdentMode.ofTag? m.tag = some m := by
  cases m <;> rfl

theorem reads_typeCode (c : TypeCode) : Reads typeCode [c.byte] c := by
  refine Reads.positioned fun pos => ?_
  refine (reads_byte c.byte).last ?_
  rw [ofByte_byte]
  exact reads_pure c

/-- A text of any length that can be written has its length read back. -/
theorem reads_textLength (n : Nat) (h : n < 0x8000000000000000) :
    Reads textLength (lengthBytes n) (n : Int) := by
  unfold lengthBytes
  split
  · rename_i hn
    have hint := (reads_int8 (Int8.ofNat n)).map Int8.toInt
    refine (reads_typeCode .int8).bind (hint.cast ?_ ?_)
    · simp [leBytes]
    · exact Int8.toInt_ofNat_of_lt hn
  · split
    · rename_i hn
      have hint := (reads_int16 (Int16.ofNat n)).map Int16.toInt
      refine (reads_typeCode .int16).bind (hint.cast ?_ ?_)
      · rw [Int16.toUInt16_ofNat', UInt16.toNat_ofNat_of_lt' (by simp [UInt16.size]; omega)]
        rfl
      · exact Int16.toInt_ofNat_of_lt hn
    · have hint := (reads_int (Int64.ofNat n)).map Int64.toInt
      refine (reads_typeCode .int).bind (hint.cast ?_ ?_)
      · rw [Int64.toUInt64_ofNat', UInt64.toNat_ofNat_of_lt' (by simp [UInt64.size]; omega)]
        rfl
      · exact Int64.toInt_ofNat_of_lt h

theorem reads_textBytes (s : String) : Reads (take s.utf8ByteSize) (textBytes s) (textBytes s) := by
  rw [← length_textBytes]
  exact reads_take (textBytes s)

theorem reads_text (s : String) (h : s.utf8ByteSize < 0x8000000000000000) :
    Reads text (lengthBytes s.utf8ByteSize ++ textBytes s) s := by
  refine (reads_textLength _ h).bind ?_
  have hneg : ¬ (s.utf8ByteSize : Int) < 0 := by omega
  rw [if_neg hneg, Int.toNat_natCast]
  refine (reads_textBytes s).last ?_
  rw [ofTextBytes_textBytes]
  exact reads_pure s

theorem reads_ident (i : Ident) (h : i.encodable = true) : Reads ident i.bytes i := by
  cases i with
  | byte n =>
    refine (reads_byte IdentMode.byte.tag).bind ?_
    rw [ofTag_tag]
    exact (reads_byte n).map Ident.byte
  | short n =>
    refine (reads_byte IdentMode.short.tag).bind ?_
    rw [ofTag_tag]
    exact (reads_short n).map Ident.short
  | name s =>
    have hlen : s.utf8ByteSize ≤ 255 := of_decide_eq_true h
    refine (reads_byte IdentMode.name.tag).bind ?_
    rw [ofTag_tag]
    refine (reads_byte (UInt8.ofNat s.utf8ByteSize)).bind ?_
    rw [UInt8.toNat_ofNat_of_lt' (by simp [UInt8.size]; omega)]
    refine (reads_textBytes s).last ?_
    rw [ofTextBytes_textBytes]
    exact reads_pure (Ident.name s)

theorem reads_typeCount (n : Nat) (h : n < 0x80) : Reads typeCount [UInt8.ofNat n] n := by
  have hint : Reads int8 [UInt8.ofNat n] (Int8.ofNat n) :=
    (reads_int8 (Int8.ofNat n)).cast (by simp) rfl
  refine hint.last ?_
  rw [Int8.toInt_ofNat_of_lt h, if_neg (by omega)]
  exact reads_pure n

/-! ## Types

The depth that a decoder is given counts down once for every type inside another, and a type
inside another has fewer bytes. So the number of bytes is depth enough. -/

theorem one_le_length_ty (t : Ty) : 1 ≤ t.bytes.length := by
  cases t <;> simp [Ty.bytes]

mutual

theorem reads_tyWithin (t : Ty) (depth : Nat) (h : t.encodable = true)
    (hdepth : t.bytes.length ≤ depth) : Reads (tyWithin depth) t.bytes t := by
  obtain ⟨depth, rfl⟩ : ∃ d, depth = d + 1 := by
    have := one_le_length_ty t
    exact ⟨depth - 1, by omega⟩
  cases t with
  | array elem =>
    simp only [Ty.encodable] at h
    simp only [Ty.bytes, List.length_cons] at hdepth
    refine (reads_typeCode .array).bind ?_
    exact (reads_tyWithin elem depth h (by omega)).map Ty.array
  | tuple ts =>
    simp only [Ty.encodable, Bool.and_eq_true, decide_eq_true_eq] at h
    simp only [Ty.bytes, List.length_cons] at hdepth
    refine (reads_typeCode .tuple).bind ((reads_typeCount _ h.1).bind ?_)
    exact (reads_tysWithin ts depth h.2 (by omega)).map Ty.tuple
  | union ts =>
    simp only [Ty.encodable, Bool.and_eq_true, decide_eq_true_eq] at h
    simp only [Ty.bytes, List.length_cons] at hdepth
    refine (reads_typeCode .union).bind ((reads_typeCount _ h.1).bind ?_)
    exact (reads_tysWithin ts depth h.2 (by omega)).map Ty.union
  | struct fs =>
    simp only [Ty.encodable, Bool.and_eq_true, decide_eq_true_eq] at h
    simp only [Ty.bytes, List.length_cons] at hdepth
    refine (reads_typeCode .struct).bind ((reads_typeCount _ h.1).bind ?_)
    exact (reads_fieldsWithin fs depth h.2 (by omega)).map Ty.struct
  | lambda params result variadic =>
    simp only [Ty.encodable, Bool.and_eq_true, decide_eq_true_eq] at h
    simp only [Ty.bytes, List.length_cons, List.length_append] at hdepth
    refine (reads_typeCode .lambda).bind ?_
    refine (reads_tyWithin result depth h.1 (by omega)).bind ((reads_typeCount _ h.2.1).bind ?_)
    refine (reads_fieldsWithin params depth h.2.2 (by omega)).bind ?_
    exact (reads_bool variadic).map (Ty.lambda params result)
  | ref name => exact (reads_typeCode .ref).bind ((reads_ident name h).map Ty.ref)
  | objRef name => exact (reads_typeCode .objRef).bind ((reads_ident name h).map Ty.objRef)
  | ident name => exact (reads_typeCode .ident).bind ((reads_ident name h).map Ty.ident)
  | any | nil | bool | int | int8 | int16 | float32 | float64 | complex64 | complex128 | string
  | char => exact (reads_typeCode _).last (reads_pure _)

theorem reads_tysWithin (ts : List Ty) (depth : Nat) (h : Ty.encodableAll ts = true)
    (hdepth : (Ty.bytesAll ts).length ≤ depth) :
    Reads (many (tyWithin depth) ts.length) (Ty.bytesAll ts) ts := by
  cases ts with
  | nil => exact reads_pure []
  | cons t ts =>
    simp only [Ty.encodableAll, Bool.and_eq_true] at h
    simp only [Ty.bytesAll, List.length_append] at hdepth
    refine (reads_tyWithin t depth h.1 (by omega)).bind ?_
    exact (reads_tysWithin ts depth h.2 (by omega)).map (t :: ·)

theorem reads_fieldsWithin (fs : List (Ident × Ty)) (depth : Nat)
    (h : Ty.encodableFields fs = true) (hdepth : (Ty.bytesFields fs).length ≤ depth) :
    Reads (many (field (tyWithin depth)) fs.length) (Ty.bytesFields fs) fs := by
  cases fs with
  | nil => exact reads_pure []
  | cons f fs =>
    obtain ⟨name, t⟩ := f
    simp only [Ty.encodableFields, Bool.and_eq_true] at h
    simp only [Ty.bytesFields, List.length_append] at hdepth
    have hfield : Reads (field (tyWithin depth)) (name.bytes ++ t.bytes) (name, t) :=
      (reads_ident name h.1).bind ((reads_tyWithin t depth h.2.1 (by omega)).map (name, ·))
    refine (hfield.bind ((reads_fieldsWithin fs depth h.2.2 (by omega)).map
      ((name, t) :: ·))).cast ?_ rfl
    simp only [Ty.bytesFields, List.append_assoc]

end

/-- With the bytes that are left as the depth, nothing that was written is too deep. -/
theorem Reads.remaining {α : Type} {f : Nat → Decoder α} {bs : List UInt8} {a : α}
    (h : ∀ depth, bs.length ≤ depth → Reads (f depth) bs a) :
    Reads (do f (← remaining)) bs a := by
  intro code pos hat
  have hend := hat.end_le
  exact h (code.size - pos) (by omega) code pos hat

theorem reads_ty (t : Ty) (h : t.encodable = true) : Reads ty t.bytes t :=
  Reads.remaining fun depth hdepth => reads_tyWithin t depth h hdepth

end Decoder

end BytecodeCompiler
