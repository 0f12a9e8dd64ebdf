import BytecodeCompiler.Proofs.Code.Written

-- How large types and values may be. The code counts the members of a type in a signed byte, those
-- of a value in an unsigned byte, and the bytes of a name in an unsigned byte. The limits hold for
-- every part of a type or value, at any depth, and what keeps them is what can be written.

namespace BytecodeCompiler

/-- How many bytes the name of an identifier has. Numbers have no name. -/
def Ident.size : Ident → Nat
  | .name s => s.utf8ByteSize
  | _ => 0

theorem Ident.encodable_iff (i : Ident) : i.encodable = true ↔ i.size ≤ 255 := by
  cases i with
  | name s => exact decide_eq_true_iff
  | byte | short => simp [encodable, size]

/-! ## Types -/

namespace Ty

mutual

/-- All types inside a type, itself first. -/
def parts : Ty → List Ty
  | .array elem => .array elem :: elem.parts
  | .tuple members => .tuple members :: partsAll members
  | .union members => .union members :: partsAll members
  | .struct fields => .struct fields :: partsFields fields
  | .lambda params result variadic =>
    .lambda params result variadic :: (result.parts ++ partsFields params)
  | t => [t]

def partsAll : List Ty → List Ty
  | [] => []
  | t :: ts => t.parts ++ partsAll ts

def partsFields : List (Ident × Ty) → List Ty
  | [] => []
  | (_, t) :: fs => t.parts ++ partsFields fs

end

/-- How many members a type counts. -/
def memberCount : Ty → Nat
  | .tuple members => members.length
  | .union members => members.length
  | .struct fields => fields.length
  | .lambda params _ _ => params.length
  | _ => 0

/-- The identifiers that a type holds itself. -/
def idents : Ty → List Ident
  | .struct fields => fields.map Prod.fst
  | .lambda params _ _ => params.map Prod.fst
  | .ref name => [name]
  | .objRef name => [name]
  | .ident name => [name]
  | _ => []

/-- A type keeps the limits: at most 127 members, and names of at most 255 bytes. -/
structure Fits (t : Ty) : Prop where
  members : t.memberCount ≤ 127
  names : ∀ i ∈ t.idents, i.size ≤ 255

/-- All types inside a type keep the limits. -/
def AllFit (t : Ty) : Prop := ∀ u ∈ t.parts, u.Fits

theorem fits_iff {t : Ty} : t.Fits ↔ t.memberCount ≤ 127 ∧ ∀ i ∈ t.idents, i.size ≤ 255 :=
  ⟨fun h => ⟨h.members, h.names⟩, fun h => ⟨h.1, h.2⟩⟩

/-- A type that counts types keeps the limits if there are not too many of them. -/
theorem fits_counted {t : Ty} (h : t.idents = []) : t.Fits ↔ t.memberCount < 0x80 := by
  rw [fits_iff, h]
  exact ⟨fun hfits => Nat.lt_succ_of_le hfits.1,
    fun hlt => ⟨Nat.le_of_lt_succ hlt, List.forall_mem_nil _⟩⟩

mutual

/-- A type can be written if and only if all types inside it keep the limits. -/
theorem encodable_iff_allFit (t : Ty) : t.encodable = true ↔ t.AllFit := by
  unfold AllFit
  cases t with
  | array elem =>
    have helem := encodable_iff_allFit elem
    unfold AllFit at helem
    simp [encodable, parts, fits_iff, memberCount, idents, helem]
  | tuple members =>
    have hmembers := encodableAll_iff members
    rw [encodable, parts, List.forall_mem_cons, fits_counted rfl, ← hmembers]
    simp [memberCount]
  | union members =>
    have hmembers := encodableAll_iff members
    rw [encodable, parts, List.forall_mem_cons, fits_counted rfl, ← hmembers]
    simp [memberCount]
  | struct fields =>
    have hfields := encodableFields_iff fields
    simp only [encodable, parts, List.forall_mem_cons, fits_iff, hfields, Bool.and_eq_true,
      decide_eq_true_eq]
    constructor
    · rintro ⟨hcount, hnames, hparts⟩
      exact ⟨⟨Nat.le_of_lt_succ hcount, hnames⟩, hparts⟩
    · rintro ⟨⟨hcount, hnames⟩, hparts⟩
      exact ⟨Nat.lt_succ_of_le hcount, hnames, hparts⟩
  | lambda params result variadic =>
    have hresult := encodable_iff_allFit result
    have hparams := encodableFields_iff params
    unfold AllFit at hresult
    simp only [encodable, parts, List.forall_mem_cons, List.forall_mem_append, fits_iff, hresult,
      hparams, Bool.and_eq_true, decide_eq_true_eq]
    constructor
    · rintro ⟨hinside, hcount, hnames, hparts⟩
      exact ⟨⟨Nat.le_of_lt_succ hcount, hnames⟩, hinside, hparts⟩
    · rintro ⟨⟨hcount, hnames⟩, hinside, hparts⟩
      exact ⟨hinside, Nat.lt_succ_of_le hcount, hnames, hparts⟩
  | ref name | objRef name | ident name =>
    simp [encodable, parts, fits_iff, memberCount, idents, Ident.encodable_iff]
  | any | nil | bool | int | int8 | int16 | float32 | float64 | complex64 | complex128 | string
  | char => simp [encodable, parts, fits_iff, memberCount, idents]

theorem encodableAll_iff (ts : List Ty) :
    encodableAll ts = true ↔ ∀ u ∈ partsAll ts, u.Fits := by
  cases ts with
  | nil => simp [encodableAll, partsAll]
  | cons t ts =>
    have hfirst := encodable_iff_allFit t
    have hrest := encodableAll_iff ts
    rw [encodableAll, partsAll, List.forall_mem_append, Bool.and_eq_true, hfirst, hrest, AllFit]

theorem encodableFields_iff (fs : List (Ident × Ty)) : encodableFields fs = true ↔
    (∀ i ∈ fs.map Prod.fst, i.size ≤ 255) ∧ ∀ u ∈ partsFields fs, u.Fits := by
  cases fs with
  | nil => simp [encodableFields, partsFields]
  | cons f fs =>
    obtain ⟨name, t⟩ := f
    have hfirst := encodable_iff_allFit t
    have hrest := encodableFields_iff fs
    rw [encodableFields, partsFields, List.map_cons, List.forall_mem_cons, List.forall_mem_append,
      Bool.and_eq_true, Bool.and_eq_true, hfirst, hrest, Ident.encodable_iff, AllFit]
    constructor
    · rintro ⟨hname, hinside, hnames, hparts⟩
      exact ⟨⟨hname, hnames⟩, hinside, hparts⟩
    · rintro ⟨⟨hname, hnames⟩, hinside, hparts⟩
      exact ⟨hname, hinside, hnames, hparts⟩

end

end Ty

/-! ## Values -/

namespace Value

mutual

/-- All values inside a value, itself first. What is spread and the fallback of a reference are
inside too. -/
def parts : Value → List Value
  | .tuple values => .tuple values :: partsAll values
  | .struct fields values => .struct fields values :: partsAll values
  | .array elem values => .array elem values :: partsAll values
  | .spread inner => .spread inner :: inner.parts
  | .named name fallback => .named name fallback :: fallback.parts
  | v => [v]

def partsAll : List Value → List Value
  | [] => []
  | v :: vs => v.parts ++ partsAll vs

end

/-- The limits of a value. A tuple is written behind a type that is made from its values, so they
must fit the count of a type. The values of arrays and structs need only fit the count of values. -/
structure KeepsLimits (v : Value) : Prop where
  tuples : ∀ values, .tuple values ∈ v.parts → values.length ≤ 127
  arrays : ∀ elem values, .array elem values ∈ v.parts → values.length ≤ 255 ∧ elem.AllFit
  structs : ∀ fields values, .struct fields values ∈ v.parts →
    values.length ≤ 255 ∧ (Ty.struct fields).AllFit
  names : ∀ name fallback, .named name fallback ∈ v.parts → name.size ≤ 255

/-- The length of every text inside the value is a number of 64 bits with a sign. The length of a
text in memory always is. -/
def TextsFit (v : Value) : Prop := ∀ s, .string s ∈ v.parts → s.utf8ByteSize < 0x8000000000000000

/-- What is asked of one part of a value. -/
def Fits : Value → Prop
  | .string s => s.utf8ByteSize < 0x8000000000000000
  | .tuple values => values.length ≤ 127
  | .struct fields values => values.length ≤ 255 ∧ (Ty.struct fields).AllFit
  | .array elem values => values.length ≤ 255 ∧ elem.AllFit
  | .named name _ => name.size ≤ 255
  | _ => True

/-- The limits are asked of each part by its kind. -/
theorem forall_fits_iff {v : Value} :
    (∀ u ∈ v.parts, u.Fits) ↔ v.KeepsLimits ∧ v.TextsFit := by
  constructor
  · intro h
    exact ⟨⟨fun _ hu => h _ hu, fun _ _ hu => h _ hu, fun _ _ hu => h _ hu, fun _ _ hu => h _ hu⟩,
      fun _ hu => h _ hu⟩
  · rintro ⟨hlimits, htexts⟩ u hu
    cases u with
    | string s => exact htexts s hu
    | tuple values => exact hlimits.tuples values hu
    | struct fields values => exact hlimits.structs fields values hu
    | array elem values => exact hlimits.arrays elem values hu
    | named name fallback => exact hlimits.names name fallback hu
    | _ => exact trivial

mutual

/-- A value can be written if and only if all values inside it keep the limits. -/
theorem encodable_iff_fits (v : Value) : v.encodable = true ↔ ∀ u ∈ v.parts, u.Fits := by
  cases v with
  | tuple values =>
    have hvalues := encodableAll_iff_fits values
    simp only [encodable, parts, List.forall_mem_cons, Fits, hvalues, Bool.and_eq_true,
      decide_eq_true_eq, Nat.lt_succ_iff]
  | struct fields values =>
    have hvalues := encodableAll_iff_fits values
    have hfields := Ty.encodable_iff_allFit (.struct fields)
    simp only [encodable, parts, List.forall_mem_cons, Fits, hvalues, hfields, Bool.and_eq_true,
      decide_eq_true_eq, Nat.lt_succ_iff, and_assoc, and_left_comm]
  | array elem values =>
    have hvalues := encodableAll_iff_fits values
    have helem := Ty.encodable_iff_allFit elem
    simp only [encodable, parts, List.forall_mem_cons, Fits, hvalues, helem, Bool.and_eq_true,
      decide_eq_true_eq, Nat.lt_succ_iff, and_assoc, and_left_comm]
  | spread inner =>
    have hinner := encodable_iff_fits inner
    simp only [encodable, parts, List.forall_mem_cons, Fits, hinner, true_and]
  | named name fallback =>
    have hfallback := encodable_iff_fits fallback
    simp only [encodable, parts, List.forall_mem_cons, Fits, hfallback, Bool.and_eq_true,
      Ident.encodable_iff]
  | string s => simp [encodable, parts, Fits]
  | nil | bool | int | int8 | int16 | float32 | float64 | complex64 | complex128 | char =>
    simp [encodable, parts, Fits]

theorem encodableAll_iff_fits (vs : List Value) :
    encodableAll vs = true ↔ ∀ u ∈ partsAll vs, u.Fits := by
  cases vs with
  | nil => simp [encodableAll, partsAll]
  | cons v vs =>
    have hfirst := encodable_iff_fits v
    have hrest := encodableAll_iff_fits vs
    rw [encodableAll, partsAll, List.forall_mem_append, Bool.and_eq_true, hfirst, hrest]

end

theorem encodable_iff_keepsLimits (v : Value) :
    v.encodable = true ↔ v.KeepsLimits ∧ v.TextsFit :=
  (encodable_iff_fits v).trans forall_fits_iff

end Value

/-! ## Writing -/

namespace Encoder

/-- The step succeeds if and only if the condition holds. If it fails, what was in the buffer is
still in front, and the fault is about a name that is too long or about something else that the code
cannot express. -/
structure SucceedsIff (step : Encoder Unit) (cond : Prop) : Prop where
  ok : ∀ code, (∃ written, step code = .ok () written) ↔ cond
  kept : ∀ code fault written, step code = .error fault written → code.toList <+: written.toList
  refused : ∀ code fault written, step code = .error fault written →
    (∃ length, fault = .identTooLong length) ∨
    ∃ offset detail, fault = .invalidEncoding offset detail

theorem Writes.succeedsIff {step : Encoder Unit} {cond : Prop} {bs : List UInt8}
    (h : Writes step cond bs) : SucceedsIff step cond := by
  have hrefused : ∀ code fault written, step code = .error fault written →
      ∃ rest : List UInt8, written = code ++ rest ∧ fault.isRefusal = true := by
    intro code fault written herror
    by_cases hcond : cond
    · rw [h.ok hcond code] at herror
      cases herror
    · obtain ⟨fault', rest, herror', hfault⟩ := h.refused hcond code
      rw [herror'] at herror
      cases herror
      exact ⟨rest, rfl, hfault⟩
  constructor
  · intro code
    constructor
    · rintro ⟨written, hok⟩
      exact (h.of_ok hok).1
    · intro hcond
      exact ⟨code ++ bs, h.ok hcond code⟩
  · intro code fault written herror
    obtain ⟨rest, rfl, -⟩ := hrefused code fault written herror
    rw [Array.toList_appendList]
    exact List.prefix_append _ _
  · intro code fault written herror
    obtain ⟨-, -, hfault⟩ := hrefused code fault written herror
    cases fault with
    | identTooLong length => exact .inl ⟨length, rfl⟩
    | invalidEncoding offset detail => exact .inr ⟨offset, detail, rfl⟩
    | _ => cases hfault

end Encoder

/-- What can be written. A type can if and only if every tuple, union, struct and lambda type inside
it has at most 127 members, and every name inside it at most 255 bytes. A value can if and only if,
in it and in the values that it spreads or falls back on, every tuple has at most 127 elements,
every array and struct at most 255 values, every element type and layout can be written as a type,
and every name has at most 255 bytes. A text too must fit its length, as every text in memory does.
What cannot be written is refused, and the buffer keeps what it held. -/
theorem encoder_domain :
    (∀ t : Ty, Encoder.SucceedsIff (Encoder.ty t) t.AllFit) ∧
    ∀ v : Value, Encoder.SucceedsIff (Encoder.value v) (v.KeepsLimits ∧ v.TextsFit) := by
  constructor
  · intro t
    exact ((Encoder.writes_ty t).congr t.encodable_iff_allFit).succeedsIff
  · intro v
    exact ((Encoder.writes_value v).congr v.encodable_iff_keepsLimits).succeedsIff

end BytecodeCompiler
