import BytecodeCompiler.Ty

-- Types can be compared: `same` walks both sides together, and it is true exactly for
-- equal types.

namespace BytecodeCompiler.Ty

mutual

/-- Whether two types are the same. -/
def same : Ty → Ty → Bool
  | .array a, .array b => same a b
  | .tuple as, .tuple bs => sameAll as bs
  | .union as, .union bs => sameAll as bs
  | .struct as, .struct bs => sameFields as bs
  | .lambda ps r v, .lambda qs s w => sameFields ps qs && same r s && v == w
  | .ref a, .ref b => a == b
  | .objRef a, .objRef b => a == b
  | .ident a, .ident b => a == b
  | .any, .any | .nil, .nil | .bool, .bool | .int, .int | .int8, .int8 | .int16, .int16
  | .float32, .float32 | .float64, .float64 | .complex64, .complex64
  | .complex128, .complex128 | .string, .string | .char, .char => true
  | _, _ => false

def sameAll : List Ty → List Ty → Bool
  | [], [] => true
  | a :: as, b :: bs => same a b && sameAll as bs
  | _, _ => false

def sameFields : List (Ident × Ty) → List (Ident × Ty) → Bool
  | [], [] => true
  | (i, a) :: as, (j, b) :: bs => i == j && same a b && sameFields as bs
  | _, _ => false

end

mutual

theorem eq_of_same : ∀ {a b : Ty}, same a b = true → a = b
  | .array a, b => by
    cases b <;> simp only [same, Bool.false_eq_true, false_implies]
    intro h; rw [eq_of_same h]
  | .tuple as, b => by
    cases b <;> simp only [same, Bool.false_eq_true, false_implies]
    intro h; rw [eq_of_sameAll h]
  | .union as, b => by
    cases b <;> simp only [same, Bool.false_eq_true, false_implies]
    intro h; rw [eq_of_sameAll h]
  | .struct as, b => by
    cases b <;> simp only [same, Bool.false_eq_true, false_implies]
    intro h; rw [eq_of_sameFields h]
  | .lambda ps r v, b => by
    cases b <;>
      simp only [same, Bool.false_eq_true, false_implies, Bool.and_eq_true, beq_iff_eq]
    rintro ⟨⟨hp, hr⟩, hv⟩
    rw [eq_of_sameFields hp, eq_of_same hr, hv]
  | .ref a, b | .objRef a, b | .ident a, b => by
    cases b <;> simp [same]
  | .any, b | .nil, b | .bool, b | .int, b | .int8, b | .int16, b | .float32, b | .float64, b
  | .complex64, b | .complex128, b | .string, b | .char, b => by
    cases b <;> simp [same]

theorem eq_of_sameAll : ∀ {as bs : List Ty}, sameAll as bs = true → as = bs
  | [], bs => by cases bs <;> simp [sameAll]
  | a :: as, bs => by
    cases bs <;> simp only [sameAll, Bool.false_eq_true, false_implies, Bool.and_eq_true]
    rintro ⟨h, hs⟩
    rw [eq_of_same h, eq_of_sameAll hs]

theorem eq_of_sameFields : ∀ {as bs : List (Ident × Ty)}, sameFields as bs = true → as = bs
  | [], bs => by cases bs <;> simp [sameFields]
  | (i, a) :: as, bs => by
    rcases bs with - | ⟨⟨j, b⟩, bs⟩ <;>
      simp only [sameFields, Bool.false_eq_true, false_implies, Bool.and_eq_true, beq_iff_eq]
    rintro ⟨⟨hi, h⟩, hs⟩
    rw [hi, eq_of_same h, eq_of_sameFields hs]

end

mutual

theorem same_self : ∀ a : Ty, same a a = true
  | .array a => by simp [same, same_self a]
  | .tuple as | .union as => by simp [same, sameAll_self as]
  | .struct as => by simp [same, sameFields_self as]
  | .lambda ps r v => by simp [same, sameFields_self ps, same_self r]
  | .ref a | .objRef a | .ident a => by simp [same]
  | .any | .nil | .bool | .int | .int8 | .int16 | .float32 | .float64 | .complex64 | .complex128
  | .string | .char => by simp [same]

theorem sameAll_self : ∀ as : List Ty, sameAll as as = true
  | [] => by simp [sameAll]
  | a :: as => by simp [sameAll, same_self a, sameAll_self as]

theorem sameFields_self : ∀ as : List (Ident × Ty), sameFields as as = true
  | [] => by simp [sameFields]
  | (i, a) :: as => by simp [sameFields, same_self a, sameFields_self as]

end

theorem same_iff {a b : Ty} : same a b = true ↔ a = b :=
  ⟨eq_of_same, fun h => h ▸ same_self a⟩

instance : DecidableEq Ty := fun _ _ => decidable_of_iff _ same_iff

end BytecodeCompiler.Ty
