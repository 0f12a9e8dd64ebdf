import BytecodeCompiler.Code.Encode

-- What identifiers, types and values look like in the code, as plain lists of bytes, and
-- which of them can be written. An encoder appends exactly these bytes when they can, and
-- refuses when they cannot.

namespace BytecodeCompiler

@[simp]
theorem length_leBytes (width n : Nat) : (leBytes width n).length = width := by
  induction width generalizing n with
  | zero => rfl
  | succ width ih => simp [leBytes, ih]

/-! ## The bytes of identifiers -/

namespace Ident

/-- Whether the identifier can be written: a name must fit its length byte. -/
def encodable : Ident → Bool
  | .name s => s.utf8ByteSize ≤ maxName
  | _ => true

/-- The identifier in the code: its tag, then the number or the counted bytes of the name. -/
def bytes : Ident → List UInt8
  | .byte n => [IdentMode.byte.tag, n]
  | .short n => IdentMode.short.tag :: leBytes 2 n.toNat
  | .name s => IdentMode.name.tag :: UInt8.ofNat s.utf8ByteSize :: textBytes s

end Ident

/-- A truth value in the code. -/
def boolByte (b : Bool) : UInt8 := if b then 1 else 0

/-- The length of a text in the code: the narrowest signed type that holds it, and the number. -/
def lengthBytes (n : Nat) : List UInt8 :=
  if n < 0x80 then TypeCode.int8.byte :: leBytes 1 n
  else if n < 0x8000 then TypeCode.int16.byte :: leBytes 2 n
  else TypeCode.int.byte :: leBytes 8 n

/-! ## The bytes of types -/

namespace Ty

mutual

/-- Whether the type can be written: no more members than a signed byte counts, and no name
that is too long. -/
def encodable : Ty → Bool
  | .array elem => elem.encodable
  | .tuple members => members.length < 0x80 && encodableAll members
  | .union members => members.length < 0x80 && encodableAll members
  | .struct fields => fields.length < 0x80 && encodableFields fields
  | .lambda params result _ =>
    result.encodable && (params.length < 0x80 && encodableFields params)
  | .ref name => name.encodable
  | .objRef name => name.encodable
  | .ident name => name.encodable
  | _ => true

def encodableAll : List Ty → Bool
  | [] => true
  | t :: ts => t.encodable && encodableAll ts

def encodableFields : List (Ident × Ty) → Bool
  | [] => true
  | (name, t) :: fs => name.encodable && (t.encodable && encodableFields fs)

end

mutual

/-- The type in the code: its code, then what belongs to it. -/
def bytes : Ty → List UInt8
  | .array elem => TypeCode.array.byte :: elem.bytes
  | .tuple members => TypeCode.tuple.byte :: UInt8.ofNat members.length :: bytesAll members
  | .union members => TypeCode.union.byte :: UInt8.ofNat members.length :: bytesAll members
  | .struct fields => TypeCode.struct.byte :: UInt8.ofNat fields.length :: bytesFields fields
  | .lambda params result variadic =>
    TypeCode.lambda.byte ::
      (result.bytes ++ UInt8.ofNat params.length :: (bytesFields params ++ [boolByte variadic]))
  | .ref name => TypeCode.ref.byte :: name.bytes
  | .objRef name => TypeCode.objRef.byte :: name.bytes
  | .ident name => TypeCode.ident.byte :: name.bytes
  | t => [t.code.byte]

def bytesAll : List Ty → List UInt8
  | [] => []
  | t :: ts => t.bytes ++ bytesAll ts

def bytesFields : List (Ident × Ty) → List UInt8
  | [] => []
  | (name, t) :: fs => name.bytes ++ (t.bytes ++ bytesFields fs)

end

end Ty

/-! ## The bytes of values -/

namespace Value

mutual

/-- Whether the value can be written. A tuple must fit the count of its type, the other
collections the count of their values. -/
def encodable : Value → Bool
  | .string s => s.utf8ByteSize < 0x8000000000000000
  | .tuple values => values.length < 0x80 && encodableAll values
  | .struct fields values =>
    (Ty.struct fields).encodable && (values.length < 0x100 && encodableAll values)
  | .array elem values => elem.encodable && (values.length < 0x100 && encodableAll values)
  | .spread inner => inner.encodable
  | .named name fallback => name.encodable && fallback.encodable
  | _ => true

def encodableAll : List Value → Bool
  | [] => true
  | v :: vs => v.encodable && encodableAll vs

end

mutual

/-- What stands behind the type of the value in the code. -/
def contentBytes : Value → List UInt8
  | .nil => []
  | .bool b => [boolByte b]
  | .int n => leBytes 8 n.toUInt64.toNat
  | .int8 n => [n.toUInt8]
  | .int16 n => leBytes 2 n.toUInt16.toNat
  | .float32 bits => leBytes 4 bits.toNat
  | .float64 bits => leBytes 8 bits.toNat
  | .complex64 re im => leBytes 4 re.toNat ++ leBytes 4 im.toNat
  | .complex128 re im => leBytes 8 re.toNat ++ leBytes 8 im.toNat
  | .string s => lengthBytes s.utf8ByteSize ++ textBytes s
  | .char c => textBytes (String.singleton c)
  | .tuple values => UInt8.ofNat values.length :: bytesAll values
  | .struct _ values => UInt8.ofNat values.length :: bytesAll values
  | .array _ values => UInt8.ofNat values.length :: bytesAll values
  | .spread inner => inner.contentBytes
  | .named _ fallback => fallback.ty.bytes ++ fallback.contentBytes

def bytesAll : List Value → List UInt8
  | [] => []
  | v :: vs => v.ty.bytes ++ (v.contentBytes ++ bytesAll vs)

end

/-- The value in the code: its type, then its contents. -/
def bytes (v : Value) : List UInt8 := v.ty.bytes ++ v.contentBytes

end Value

/-! ## Writing -/

/-- What happens first decides: a step that succeeds hands its state on. -/
theorem bind_of_ok {ε σ α β : Type} {x : EStateM ε σ α} {f : α → EStateM ε σ β} {s s' : σ} {a : α}
    (h : x s = .ok a s') : (x >>= f) s = f a s' := by
  simp [bind, EStateM.bind, h]

/-- What happens first decides: a step that fails ends the run. -/
theorem bind_of_error {ε σ α β : Type} {x : EStateM ε σ α} {f : α → EStateM ε σ β} {s s' : σ}
    {e : ε} (h : x s = .error e s') : (x >>= f) s = .error e s' := by
  simp [bind, EStateM.bind, h]

/-- Two steps that succeed are a first one that succeeds and a second one that does. -/
theorem bind_eq_ok {ε σ α β : Type} {x : EStateM ε σ α} {f : α → EStateM ε σ β} {s s'' : σ} {b : β}
    (h : (x >>= f) s = .ok b s'') : ∃ a s', x s = .ok a s' ∧ f a s' = .ok b s'' := by
  cases hx : x s with
  | ok a s' => exact ⟨a, s', rfl, by rw [← h, bind_of_ok hx]⟩
  | error fault s' =>
    rw [bind_of_error hx] at h
    cases h

/-- Whether an encoder gives the fault for what cannot be written. -/
def Fault.isRefusal : Fault → Bool
  | .identTooLong _ => true
  | .invalidEncoding .. => true
  | _ => false

theorem Code.size_append (code : Code) (bs : List UInt8) :
    (code ++ bs).size = code.size + bs.length := by
  rw [← Array.length_toList, Array.toList_appendList, List.length_append, Array.length_toList]

theorem Code.append_append (code : Code) (bs cs : List UInt8) :
    code ++ bs ++ cs = code ++ (bs ++ cs) := by
  apply Array.ext'
  simp

namespace Encoder

/-- The step appends the bytes when the condition holds. Otherwise it is refused, and what was
in the buffer stays in front. -/
structure Writes (step : Encoder Unit) (cond : Prop) (bs : List UInt8) : Prop where
  ok : cond → ∀ code, step code = .ok () (code ++ bs)
  refused : ¬ cond → ∀ code, ∃ (fault : Fault) (rest : List UInt8),
    step code = .error fault (code ++ rest) ∧ fault.isRefusal = true

theorem Writes.seq {a b : Encoder Unit} {p q : Prop} {bs cs : List UInt8} (ha : Writes a p bs)
    (hb : Writes b q cs) : Writes (do a; b) (p ∧ q) (bs ++ cs) := by
  constructor
  · rintro ⟨hp, hq⟩ code
    rw [bind_of_ok (ha.ok hp code), hb.ok hq, Code.append_append]
  · intro h code
    by_cases hp : p
    · obtain ⟨fault, rest, he, hf⟩ := hb.refused (fun hq => h ⟨hp, hq⟩) (code ++ bs)
      refine ⟨fault, bs ++ rest, ?_, hf⟩
      rw [bind_of_ok (ha.ok hp code), he, Code.append_append]
    · obtain ⟨fault, rest, he, hf⟩ := ha.refused hp code
      exact ⟨fault, rest, bind_of_error he, hf⟩

/-- A step that succeeded met its condition and appended its bytes. -/
theorem Writes.of_ok {step : Encoder Unit} {cond : Prop} {bs : List UInt8}
    {code written : Code} (hstep : Writes step cond bs) (h : step code = .ok () written) :
    cond ∧ written = code ++ bs := by
  by_cases hcond : cond
  · rw [hstep.ok hcond code] at h
    cases h
    exact ⟨hcond, rfl⟩
  · obtain ⟨fault, rest, he, -⟩ := hstep.refused hcond code
    rw [he] at h
    cases h

theorem Writes.congr {a : Encoder Unit} {p q : Prop} {bs : List UInt8} (ha : Writes a p bs)
    (h : p ↔ q) : Writes a q bs := by
  rwa [← propext h]

theorem writes_put (bs : List UInt8) : Writes (put bs) True bs :=
  ⟨fun _ _ => rfl, fun h => absurd trivial h⟩

theorem writes_bool (b : Bool) : Writes (bool b) True [boolByte b] := writes_put _

theorem writes_nothing : Writes (pure ()) True [] :=
  ⟨fun _ code => by simp [pure, EStateM.pure], fun h => absurd trivial h⟩

/-- A fixed byte in front changes nothing about what can be written. -/
theorem Writes.behind {a : Encoder Unit} {p : Prop} {bs : List UInt8} (b : UInt8)
    (ha : Writes a p bs) : Writes (do byte b; a) p (b :: bs) :=
  ((writes_put [b]).seq ha).congr (by simp)

theorem refuse_apply {α : Type} (detail : String) (code : Code) :
    (refuse detail : Encoder α) code =
      .error (.invalidEncoding code.size detail) (code ++ ([] : List UInt8)) := by
  rw [Array.appendList_nil]
  rfl

/-! ## The encoders -/

theorem writes_ident (i : Ident) : Writes (ident i) (i.encodable = true) i.bytes := by
  cases i with
  | byte n => exact ((writes_put [n]).behind _).congr (by simp [Ident.encodable])
  | short n => exact ((writes_put _).behind _).congr (by simp [Ident.encodable])
  | name s =>
    unfold ident
    refine Writes.behind _ ?_
    constructor
    · intro h code
      have hs : s.utf8ByteSize ≤ Ident.maxName := by simpa [Ident.encodable] using h
      simp only [if_pos hs]
      rfl
    · intro h code
      have hs : ¬ s.utf8ByteSize ≤ Ident.maxName := by simpa [Ident.encodable] using h
      simp only [if_neg hs]
      refine ⟨.identTooLong s.utf8ByteSize, [], ?_, rfl⟩
      rw [Array.appendList_nil]
      rfl

/-- A count is one byte, or too large for one. -/
theorem writes_count (cond : Prop) [Decidable cond] (b : UInt8) (detail : String) :
    Writes (if cond then byte b else refuse detail) cond [b] := by
  constructor
  · intro h code
    rw [if_pos h]
    rfl
  · intro h code
    rw [if_neg h]
    exact ⟨_, [], refuse_apply _ _, rfl⟩

theorem writes_typeCount (n : Nat) : Writes (typeCount n) (n < 0x80) [UInt8.ofNat n] :=
  writes_count _ _ _

theorem writes_valueCount (n : Nat) : Writes (valueCount n) (n < 0x100) [UInt8.ofNat n] :=
  writes_count _ _ _

theorem writes_entryCount (n : Nat) : Writes (entryCount n) (n < 0x100) [UInt8.ofNat n] :=
  writes_count _ _ _

theorem writes_text (s : String) :
    Writes (text s) (s.utf8ByteSize < 0x8000000000000000)
      (lengthBytes s.utf8ByteSize ++ textBytes s) := by
  unfold text lengthBytes
  simp only
  split
  · exact ((writes_put _).seq (writes_put _)).congr (by simp; omega)
  · split
    · exact ((writes_put _).seq (writes_put _)).congr (by simp; omega)
    · split
      · exact ((writes_put _).seq (writes_put _)).congr (by simp; omega)
      · rename_i h
        refine ⟨fun hs => absurd hs h, fun _ code => ?_⟩
        exact ⟨_, [], bind_of_error (refuse_apply _ code), rfl⟩

mutual

/-- A type is written if it is encodable, as its bytes. -/
theorem writes_ty (t : Ty) : Writes (ty t) (t.encodable = true) t.bytes := by
  cases t with
  | array elem =>
    simpa only [ty, Ty.encodable, Ty.bytes] using (writes_ty elem).behind _
  | tuple members =>
    simpa only [ty, Ty.encodable, Ty.bytes, Bool.and_eq_true, decide_eq_true_eq,
      List.singleton_append] using
      ((writes_typeCount members.length).seq (writes_tys members)).behind _
  | union members =>
    simpa only [ty, Ty.encodable, Ty.bytes, Bool.and_eq_true, decide_eq_true_eq,
      List.singleton_append] using
      ((writes_typeCount members.length).seq (writes_tys members)).behind _
  | struct fs =>
    simpa only [ty, Ty.encodable, Ty.bytes, Bool.and_eq_true, decide_eq_true_eq,
      List.singleton_append] using
      ((writes_typeCount fs.length).seq (writes_fields fs)).behind _
  | lambda params result variadic =>
    have hflag := (writes_fields params).seq (writes_bool variadic)
    have hparams := (writes_typeCount params.length).seq hflag
    simpa only [ty, Ty.encodable, Ty.bytes, Bool.and_eq_true, decide_eq_true_eq, and_true,
      List.singleton_append] using ((writes_ty result).seq hparams).behind _
  | ref name => simpa only [ty, Ty.encodable, Ty.bytes] using (writes_ident name).behind _
  | objRef name => simpa only [ty, Ty.encodable, Ty.bytes] using (writes_ident name).behind _
  | ident name => simpa only [ty, Ty.encodable, Ty.bytes] using (writes_ident name).behind _
  | any | nil | bool | int | int8 | int16 | float32 | float64 | complex64 | complex128 | string
  | char => exact (writes_put _).congr (by simp only [Ty.encodable])

theorem writes_tys (ts : List Ty) :
    Writes (tys ts) (Ty.encodableAll ts = true) (Ty.bytesAll ts) := by
  cases ts with
  | nil => exact writes_nothing.congr (by simp only [Ty.encodableAll])
  | cons t ts =>
    simpa only [tys, Ty.encodableAll, Ty.bytesAll, Bool.and_eq_true] using
      (writes_ty t).seq (writes_tys ts)

theorem writes_fields (fs : List (Ident × Ty)) :
    Writes (fields fs) (Ty.encodableFields fs = true) (Ty.bytesFields fs) := by
  cases fs with
  | nil => exact writes_nothing.congr (by simp only [Ty.encodableFields])
  | cons f fs =>
    obtain ⟨name, t⟩ := f
    simpa only [fields, Ty.encodableFields, Ty.bytesFields, Bool.and_eq_true] using
      (writes_ident name).seq ((writes_ty t).seq (writes_fields fs))

end

theorem length_tys (vs : List Value) : (Value.tys vs).length = vs.length := by
  induction vs with
  | nil => simp only [Value.tys, List.length_nil]
  | cons v vs ih => simp only [Value.tys, List.length_cons, ih]

mutual

/-- The type of a value that can be written can be written. -/
theorem encodable_ty_of_encodable (v : Value) (h : v.encodable = true) :
    v.ty.encodable = true := by
  cases v with
  | tuple vs =>
    simp only [Value.encodable, Bool.and_eq_true, decide_eq_true_eq] at h
    simp only [Value.ty, Ty.encodable, length_tys, Bool.and_eq_true, decide_eq_true_eq]
    exact ⟨h.1, encodable_tys_of_encodable vs h.2⟩
  | struct fs vs =>
    simp only [Value.encodable, Bool.and_eq_true] at h
    exact h.1
  | array elem vs =>
    simp only [Value.encodable, Bool.and_eq_true] at h
    simpa only [Value.ty, Ty.encodable] using h.1
  | spread inner =>
    simp only [Value.encodable] at h
    simpa only [Value.ty] using encodable_ty_of_encodable inner h
  | named name fallback =>
    simp only [Value.encodable, Bool.and_eq_true] at h
    simpa only [Value.ty, Ty.encodable] using h.1
  | nil | bool | int | int8 | int16 | float32 | float64 | complex64 | complex128 | string | char =>
    simp only [Value.ty, Ty.encodable]

theorem encodable_tys_of_encodable (vs : List Value) (h : Value.encodableAll vs = true) :
    Ty.encodableAll (Value.tys vs) = true := by
  cases vs with
  | nil => simp only [Value.tys, Ty.encodableAll]
  | cons v vs =>
    simp only [Value.encodableAll, Bool.and_eq_true] at h
    simp only [Value.tys, Ty.encodableAll, Bool.and_eq_true]
    exact ⟨encodable_ty_of_encodable v h.1, encodable_tys_of_encodable vs h.2⟩

end

/-- A value without members: its type can always be written, and only its contents decide. -/
theorem writes_typed {contents : Encoder Unit} {p : Prop} {bs : List UInt8} (t : Ty)
    (ht : t.encodable = true) (h : Writes contents p bs) :
    Writes (do ty t; contents) p (t.bytes ++ bs) :=
  ((writes_ty t).seq h).congr (by simp [ht])

mutual

/-- A value is written if it is encodable, as its bytes. -/
theorem writes_value (v : Value) : Writes (value v) (v.encodable = true) v.bytes := by
  cases v with
  | nil => simpa only [value, Value.bytes, Value.ty, Value.contentBytes, List.append_nil,
      Value.encodable, Ty.encodable] using writes_ty .nil
  | bool b => exact (writes_typed .bool rfl (writes_bool b)).congr (by simp [Value.encodable])
  | int n => exact (writes_typed .int rfl (writes_put _)).congr (by simp [Value.encodable])
  | int8 n => exact (writes_typed .int8 rfl (writes_put _)).congr (by simp [Value.encodable])
  | int16 n => exact (writes_typed .int16 rfl (writes_put _)).congr (by simp [Value.encodable])
  | float32 bits =>
    exact (writes_typed .float32 rfl (writes_put _)).congr (by simp [Value.encodable])
  | float64 bits =>
    exact (writes_typed .float64 rfl (writes_put _)).congr (by simp [Value.encodable])
  | complex64 re im =>
    exact (writes_typed .complex64 rfl ((writes_put _).seq (writes_put _))).congr
      (by simp [Value.encodable])
  | complex128 re im =>
    exact (writes_typed .complex128 rfl ((writes_put _).seq (writes_put _))).congr
      (by simp [Value.encodable])
  | string s => exact (writes_typed .string rfl (writes_text s)).congr (by simp [Value.encodable])
  | char c => exact (writes_typed .char rfl (writes_put _)).congr (by simp [Value.encodable])
  | tuple vs =>
    refine ((writes_ty _).seq ((writes_valueCount vs.length).seq (writes_values vs))).congr ?_
    simp only [Ty.encodable, Value.encodable, length_tys, Bool.and_eq_true, decide_eq_true_eq]
    constructor
    · rintro ⟨⟨hlen, -⟩, -, hall⟩
      exact ⟨hlen, hall⟩
    · rintro ⟨hlen, hall⟩
      exact ⟨⟨hlen, encodable_tys_of_encodable vs hall⟩, by omega, hall⟩
  | struct fs vs =>
    refine ((writes_ty _).seq ((writes_valueCount vs.length).seq (writes_values vs))).congr ?_
    simp only [Value.encodable, Bool.and_eq_true, decide_eq_true_eq]
  | array elem vs =>
    refine ((writes_ty _).seq ((writes_valueCount vs.length).seq (writes_values vs))).congr ?_
    simp only [Ty.encodable, Value.encodable, Bool.and_eq_true, decide_eq_true_eq]
  | spread inner =>
    simpa only [value, Value.encodable, Value.bytes, Value.ty, Value.contentBytes] using
      writes_value inner
  | named name fallback =>
    refine ((writes_ty _).seq (writes_value fallback)).congr ?_
    simp only [Ty.encodable, Value.encodable, Bool.and_eq_true]

theorem writes_values (vs : List Value) :
    Writes (values vs) (Value.encodableAll vs = true) (Value.bytesAll vs) := by
  cases vs with
  | nil => exact writes_nothing.congr (by simp only [Value.encodableAll])
  | cons v vs =>
    simpa only [values, Value.encodableAll, Value.bytesAll, Value.bytes, Bool.and_eq_true,
      List.append_assoc] using (writes_value v).seq (writes_values vs)

end

end Encoder

end BytecodeCompiler
