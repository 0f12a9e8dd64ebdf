import BytecodeCompiler.Proofs.Code.Reading

-- Values survive the way through the code. A value that was written is read back as it was,
-- but for the spreads around and inside it, which leave no trace in the code.

namespace BytecodeCompiler

namespace Value

mutual

/-- The value without any spread, at any depth. -/
def withoutSpreads : Value → Value
  | .tuple values => .tuple (withoutSpreadsAll values)
  | .struct fields values => .struct fields (withoutSpreadsAll values)
  | .array elem values => .array elem (withoutSpreadsAll values)
  | .spread inner => inner.withoutSpreads
  | .named name fallback => .named name fallback.withoutSpreads
  | v => v

def withoutSpreadsAll : List Value → List Value
  | [] => []
  | v :: vs => v.withoutSpreads :: withoutSpreadsAll vs

end

end Value

namespace Decoder

/-! ## Members -/

/-- A count that fits its byte is read back, and then the members one after the other. -/
theorem reads_members {d : Decoder Value} {n : Nat} {bs : List UInt8} {vs : List Value}
    (hn : n < 0x100) (h : Reads (many d n) bs vs) : Reads (members d) (UInt8.ofNat n :: bs) vs := by
  refine (reads_byte (UInt8.ofNat n)).bind ?_
  rwa [UInt8.toNat_ofNat_of_lt' (by simp [UInt8.size]; omega)]

/-! ## Values -/

mutual

/-- The contents of a value are read back by its type. A spread has the type and the contents of
what it spreads, so it is gone. -/
theorem reads_contents (v : Value) (depth : Nat) (h : v.encodable = true)
    (hdepth : v.contentBytes.length ≤ depth) :
    Reads (contents (valueWithin depth) v.ty) v.contentBytes v.withoutSpreads := by
  cases v with
  | nil => exact reads_pure Value.nil
  | bool b => exact (reads_bool b).map Value.bool
  | int n => exact (reads_int n).map Value.int
  | int8 n => exact (reads_int8 n).map Value.int8
  | int16 n => exact (reads_int16 n).map Value.int16
  | float32 bits => exact (reads_float32 bits).map Value.float32
  | float64 bits => exact (reads_float64 bits).map Value.float64
  | complex64 re im =>
    exact (reads_float32 re).bind ((reads_float32 im).map (Value.complex64 re))
  | complex128 re im =>
    exact (reads_float64 re).bind ((reads_float64 im).map (Value.complex128 re))
  | string s => exact (reads_text s (of_decide_eq_true h)).map Value.string
  | char c => exact (reads_char c).map Value.char
  | tuple vs =>
    simp only [Value.encodable, Bool.and_eq_true, decide_eq_true_eq] at h
    simp only [Value.contentBytes, List.length_cons] at hdepth
    have hvs := reads_valuesWithin vs depth h.2 (by omega)
    exact (reads_members (by omega) hvs).map Value.tuple
  | struct fs vs =>
    simp only [Value.encodable, Bool.and_eq_true, decide_eq_true_eq] at h
    simp only [Value.contentBytes, List.length_cons] at hdepth
    have hvs := reads_valuesWithin vs depth h.2.2 (by omega)
    exact (reads_members h.2.1 hvs).map (Value.struct fs)
  | array elem vs =>
    simp only [Value.encodable, Bool.and_eq_true, decide_eq_true_eq] at h
    simp only [Value.contentBytes, List.length_cons] at hdepth
    have hvs := reads_valuesWithin vs depth h.2.2 (by omega)
    exact (reads_members h.2.1 hvs).map (Value.array elem)
  | spread inner => exact reads_contents inner depth h hdepth
  | named name fallback =>
    simp only [Value.encodable, Bool.and_eq_true] at h
    exact (reads_valueWithin fallback depth h.2 hdepth).map (Value.named name)

theorem reads_valueWithin (v : Value) (depth : Nat) (h : v.encodable = true)
    (hdepth : v.bytes.length ≤ depth) :
    Reads (valueWithin depth) v.bytes v.withoutSpreads := by
  have hty := one_le_length_ty v.ty
  simp only [Value.bytes, List.length_append] at hdepth
  obtain ⟨depth, rfl⟩ : ∃ d, depth = d + 1 := ⟨depth - 1, by omega⟩
  refine (reads_ty v.ty (Encoder.encodable_ty_of_encodable v h)).bind ?_
  exact reads_contents v depth h (by omega)

theorem reads_valuesWithin (vs : List Value) (depth : Nat) (h : Value.encodableAll vs = true)
    (hdepth : (Value.bytesAll vs).length ≤ depth) :
    Reads (many (valueWithin depth) vs.length) (Value.bytesAll vs)
      (Value.withoutSpreadsAll vs) := by
  cases vs with
  | nil => exact reads_pure []
  | cons v vs =>
    simp only [Value.encodableAll, Bool.and_eq_true] at h
    simp only [Value.bytesAll, List.length_append] at hdepth
    have hv := reads_valueWithin v depth h.1 (by simp [Value.bytes]; omega)
    have hvs := reads_valuesWithin vs depth h.2 (by omega)
    refine (hv.bind (hvs.map (v.withoutSpreads :: ·))).cast ?_ rfl
    simp only [Value.bytes, Value.bytesAll, List.append_assoc]

end

theorem reads_value (v : Value) (h : v.encodable = true) :
    Reads value v.bytes v.withoutSpreads :=
  Reads.remaining fun depth hdepth => reads_valueWithin v depth h hdepth

end Decoder

/-! ## Written, then read -/

/-- A value that was written to the end of any buffer is read back from there, without its
spreads, and the reading stops where the writing stopped, whatever comes behind. -/
theorem readAt_value_of_written (v : Value) (code written : Code) (tail : List UInt8)
    (h : Encoder.value v code = .ok () written) :
    Decoder.value.readAt (written ++ tail) code.size = .ok v.withoutSpreads written.size := by
  obtain ⟨hv, rfl⟩ := (Encoder.writes_value v).of_ok h
  rw [Decoder.reads_value v hv _ _ (Code.hasAt_append code v.bytes tail), Code.size_append]

/-- A spread array in a tuple, beside a reference that falls back on a text with letters of two
bytes, and a character of three. -/
theorem readAt_value_of_written_tuple :
    Encoder.value (.tuple [.spread (.array .int [.spread (.int 5)]),
        .named (.byte 2) (.string "éé"), .char '中']) #[7] =
      .ok () #[7, 13, 3, 12, 3, 18, 0, 2, 11, 3, 12, 3, 1, 3, 5, 0, 0, 0, 0, 0, 0, 0, 18, 0, 2, 10,
        4, 4, 0xc3, 0xa9, 0xc3, 0xa9, 11, 0xe4, 0xb8, 0xad] ∧
    Decoder.value.readAt #[7, 13, 3, 12, 3, 18, 0, 2, 11, 3, 12, 3, 1, 3, 5, 0, 0, 0, 0, 0, 0, 0,
        18, 0, 2, 10, 4, 4, 0xc3, 0xa9, 0xc3, 0xa9, 11, 0xe4, 0xb8, 0xad, 1, 2] 1 =
      .ok (.tuple [.array .int [.int 5], .named (.byte 2) (.string "éé"), .char '中']) 36 := by
  refine ⟨rfl, ?_⟩
  exact readAt_value_of_written (.tuple [.spread (.array .int [.spread (.int 5)]),
    .named (.byte 2) (.string "éé"), .char '中']) #[7] _ [1, 2] rfl

end BytecodeCompiler
