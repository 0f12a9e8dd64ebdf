import BytecodeCompiler.Proofs.Code.RoundTrip
import BytecodeCompiler.Proofs.Emission.TwoPass

-- Operands read back from the code. Plain reading of values forgets the declared type of a tuple,
-- so operands are read here with all types kept: a container comes back as its declared type and
-- its members, and any other operand as its value.

namespace BytecodeCompiler

open Piece (bytesAll encodableAll)

/-- Whether the values of a type have members. -/
def Ty.isContainer : Ty → Bool
  | .array _ | .tuple _ | .struct _ => true
  | _ => false

namespace Instr

mutual

/-- An operand that can be read back: a value, or a container of such operands. -/
def isOperand : Instr → Bool
  | .value _ _ => true
  | .iterable ty members _ => ty.isContainer && areOperands members
  | _ => false

def areOperands : List Instr → Bool
  | [] => true
  | i :: is => i.isOperand && areOperands is

end

mutual

/-- The value that an operand stands for. The declared type of a tuple is not part of it. -/
def asValue : Instr → Value
  | .value v _ => v
  | .iterable (.array elem) members _ => .array elem (asValues members)
  | .iterable (.struct fields) members _ => .struct fields (asValues members)
  | .iterable _ members _ => .tuple (asValues members)
  | _ => .nil

def asValues : List Instr → List Value
  | [] => []
  | i :: is => i.asValue :: asValues is

end

end Instr

/-! ## What comes back -/

namespace Value

mutual

/-- A value as it comes back. The code does not tell a container value from a container that is
made of operands, so its members come back one by one. -/
def asOperand : Value → Instr
  | .tuple values => .iterable (.tuple (tys values)) (asOperands values) .none
  | .struct fields values => .iterable (.struct fields) (asOperands values) .none
  | .array elem values => .iterable (.array elem) (asOperands values) .none
  | .spread inner => inner.asOperand
  | .named name fallback => .value (.named name fallback.withoutSpreads) .none
  | v => .value v .none

def asOperands : List Value → List Instr
  | [] => []
  | v :: vs => v.asOperand :: asOperands vs

end

end Value

namespace Instr

mutual

/-- An operand as it comes back: without places and spreads, and with the members of a container
in the order of the code, which is the reverse of theirs. -/
def recoveredOperand : Instr → Instr
  | .value v _ => v.asOperand
  | .iterable ty members _ => .iterable ty (recoveredOperands members).reverse .none
  | i => i

def recoveredOperands : List Instr → List Instr
  | [] => []
  | i :: is => i.recoveredOperand :: recoveredOperands is

end

end Instr

/-! ## Reading -/

namespace Decoder

/-- An operand that nests less deep than `depth`. -/
def operandWithin : (depth : Nat) → Decoder Instr
  | 0 => do throw (.unexpectedEnd (← position))
  | depth + 1 => do
    let t ← ty
    if t.isContainer then
      let members ← many (operandWithin depth) (← byte).toNat
      return .iterable t members .none
    else
      return .value (← contents (valueWithin depth) t) .none

/-- An operand, with the types of all containers in it. -/
def operand : Decoder Instr := do operandWithin (← remaining)

theorem readAt_bind_eq_ok {α β : Type} {d : Decoder α} {f : α → Decoder β} {code : Code}
    {pos stop : Nat} {b : β} (h : (d >>= f).readAt code pos = .ok b stop) :
    ∃ a mid, d.readAt code pos = .ok a mid ∧ (f a).readAt code mid = .ok b stop := bind_eq_ok h

theorem readAt_pure_eq_ok {α : Type} {a b : α} {code : Code} {pos stop : Nat}
    (h : (pure a : Decoder α).readAt code pos = .ok b stop) : a = b ∧ pos = stop := by
  cases h
  exact ⟨rfl, rfl⟩

/-! ## The values that plain reading finds -/

theorem many_value_of_many_operand {depth : Nat}
    (ih : ∀ {code pos i stop}, (operandWithin depth).readAt code pos = .ok i stop →
      (valueWithin depth).readAt code pos = .ok i.asValue stop)
    (n : Nat) {code : Code} {pos stop : Nat} {is : List Instr}
    (h : (many (operandWithin depth) n).readAt code pos = .ok is stop) :
    (many (valueWithin depth) n).readAt code pos = .ok (Instr.asValues is) stop := by
  induction n generalizing pos is with
  | zero =>
    obtain ⟨rfl, rfl⟩ := readAt_pure_eq_ok h
    rfl
  | succ n ihn =>
    obtain ⟨first, mid, hfirst, hrest⟩ := readAt_bind_eq_ok h
    obtain ⟨others, mid', hothers, hlast⟩ := readAt_bind_eq_ok hrest
    obtain ⟨rfl, rfl⟩ := readAt_pure_eq_ok hlast
    unfold many
    rw [readAt_bind_of_ok (ih hfirst), readAt_bind_of_ok (ihn hothers)]
    rfl

/-- Where an operand is read, plain reading finds its value in the same bytes. -/
theorem value_of_operandWithin (depth : Nat) {code : Code} {pos stop : Nat} {i : Instr}
    (h : (operandWithin depth).readAt code pos = .ok i stop) :
    (valueWithin depth).readAt code pos = .ok i.asValue stop := by
  induction depth generalizing code pos stop i with
  | zero => cases h
  | succ depth ih =>
    obtain ⟨t, mid, hty, hrest⟩ := readAt_bind_eq_ok h
    unfold valueWithin valueCalls
    rw [readAt_bind_of_ok hty]
    cases hcontainer : t.isContainer with
    | false =>
      simp only [hcontainer, Bool.false_eq_true, if_false] at hrest
      obtain ⟨v, mid', hv, hlast⟩ := readAt_bind_eq_ok hrest
      obtain ⟨rfl, rfl⟩ := readAt_pure_eq_ok hlast
      exact hv
    | true =>
      simp only [hcontainer, if_true] at hrest
      obtain ⟨count, mid', hcount, hrest⟩ := readAt_bind_eq_ok hrest
      obtain ⟨is, mid'', his, hlast⟩ := readAt_bind_eq_ok hrest
      obtain ⟨rfl, rfl⟩ := readAt_pure_eq_ok hlast
      have hmembers :
          (members (valueWithin depth)).readAt code mid = .ok (Instr.asValues is) mid'' := by
        unfold members
        rw [readAt_bind_of_ok hcount]
        exact many_value_of_many_operand ih _ his
      cases t with
      | array elem | tuple ts | struct fs =>
        unfold contents
        rw [readAt_bind_of_ok hmembers]
        rfl
      | _ => cases hcontainer

theorem value_of_operand {code : Code} {pos stop : Nat} {i : Instr}
    (h : operand.readAt code pos = .ok i stop) : value.readAt code pos = .ok i.asValue stop :=
  value_of_operandWithin _ h

/-! ## Operands that were written -/

/-- A container: its type, how many members there are, and the members. -/
theorem reads_container {t : Ty} {n depth : Nat} {bs : List UInt8} {is : List Instr}
    (ht : t.encodable = true) (hcontainer : t.isContainer = true) (hn : n < 0x100)
    (h : Reads (many (operandWithin depth) n) bs is) :
    Reads (operandWithin (depth + 1)) (t.bytes ++ UInt8.ofNat n :: bs) (.iterable t is .none) := by
  have hcount : (UInt8.ofNat n).toNat = n := UInt8.toNat_ofNat_of_lt' hn
  refine (reads_ty t ht).bind ?_
  rw [if_pos hcontainer]
  refine (reads_byte (UInt8.ofNat n)).bind ?_
  rw [hcount]
  exact h.map (Instr.iterable t · .none)

mutual

theorem reads_asOperand (v : Value) (depth : Nat) (h : v.encodable = true)
    (hdepth : v.bytes.length ≤ depth) : Reads (operandWithin depth) v.bytes v.asOperand := by
  have ht := Encoder.encodable_ty_of_encodable v h
  have hty := reads_ty v.ty ht
  have hpos := one_le_length_ty v.ty
  have hlength : v.bytes.length = v.ty.bytes.length + v.contentBytes.length := List.length_append
  obtain ⟨depth, rfl⟩ : ∃ d, depth = d + 1 := ⟨depth - 1, by omega⟩
  have hcontents := reads_contents v depth h (by omega)
  cases v with
  | tuple vs =>
    simp only [Value.encodable, Bool.and_eq_true, decide_eq_true_eq] at h
    simp only [Value.contentBytes, List.length_cons] at hlength
    have hvs := reads_asOperands vs depth h.2 (by omega)
    exact reads_container ht rfl (by omega) hvs
  | struct fs vs =>
    simp only [Value.encodable, Bool.and_eq_true, decide_eq_true_eq] at h
    simp only [Value.contentBytes, List.length_cons] at hlength
    exact reads_container ht rfl h.2.1 (reads_asOperands vs depth h.2.2 (by omega))
  | array elem vs =>
    simp only [Value.encodable, Bool.and_eq_true, decide_eq_true_eq] at h
    simp only [Value.contentBytes, List.length_cons] at hlength
    exact reads_container ht rfl h.2.1 (reads_asOperands vs depth h.2.2 (by omega))
  | spread inner => exact reads_asOperand inner (depth + 1) h hdepth
  | named | nil | bool | int | int8 | int16 | float32 | float64 | complex64 | complex128 | string
  | char => exact hty.bind (hcontents.map (Instr.value · .none))

theorem reads_asOperands (vs : List Value) (depth : Nat) (h : Value.encodableAll vs = true)
    (hdepth : (Value.bytesAll vs).length ≤ depth) :
    Reads (many (operandWithin depth) vs.length) (Value.bytesAll vs) (Value.asOperands vs) := by
  cases vs with
  | nil => exact reads_pure []
  | cons v vs =>
    simp only [Value.encodableAll, Bool.and_eq_true] at h
    simp only [Value.bytesAll, List.length_append] at hdepth
    have hv := reads_asOperand v depth h.1 (by simp [Value.bytes]; omega)
    have hvs := reads_asOperands vs depth h.2 (by omega)
    refine (hv.bind (hvs.map (v.asOperand :: ·))).cast ?_ rfl
    simp only [Value.bytes, Value.bytesAll, List.append_assoc]

end

theorem readAt_many_snoc {α : Type} {d : Decoder α} {a : α} (n : Nat) {as : List α} {code : Code}
    {pos mid stop : Nat} (hmany : (many d n).readAt code pos = .ok as mid)
    (hlast : d.readAt code mid = .ok a stop) :
    (many d (n + 1)).readAt code pos = .ok (as ++ [a]) stop := by
  induction n generalizing as pos with
  | zero =>
    obtain ⟨rfl, rfl⟩ := readAt_pure_eq_ok hmany
    unfold many
    rw [readAt_bind_of_ok hlast]
    rfl
  | succ n ih =>
    obtain ⟨first, mid', hfirst, hrest⟩ := readAt_bind_eq_ok hmany
    obtain ⟨others, mid'', hothers, hend⟩ := readAt_bind_eq_ok hrest
    obtain ⟨rfl, rfl⟩ := readAt_pure_eq_ok hend
    unfold many
    rw [readAt_bind_of_ok hfirst, readAt_bind_of_ok (ih hothers)]
    rfl

/-- A row that ends in one more thing. -/
theorem Reads.snoc {α : Type} {d : Decoder α} {n : Nat} {bs cs : List UInt8} {as : List α} {a : α}
    (hmany : Reads (many d n) bs as) (hlast : Reads d cs a) :
    Reads (many d (n + 1)) (bs ++ cs) (as ++ [a]) := by
  intro code pos h
  rw [List.length_append, ← Nat.add_assoc]
  exact readAt_many_snoc n (hmany code pos h.left) (hlast code _ h.right)

mutual

theorem reads_operandWithin (offset : Ident → Nat) (i : Instr) (depth : Nat)
    (hi : i.isOperand = true) (h : encodableAll i.layout = true)
    (hdepth : (bytesAll offset i.layout).length ≤ depth) :
    Reads (operandWithin depth) (bytesAll offset i.layout) i.recoveredOperand := by
  cases i with
  | value v span =>
    have hbytes : bytesAll offset (Instr.value v span).layout = v.bytes := by
      simp [Instr.layout, bytesAll, Piece.bytes]
    rw [hbytes] at hdepth ⊢
    simp only [Instr.layout, encodableAll, Piece.encodable, Bool.and_true, Bool.true_and] at h
    exact reads_asOperand v depth h hdepth
  | iterable t members span =>
    have hbytes : bytesAll offset (Instr.iterable t members span).layout = t.bytes ++
        UInt8.ofNat members.length :: bytesAll offset (Instr.layoutReversed members) := by
      simp [Instr.layout, bytesAll, Piece.bytes]
    rw [hbytes] at hdepth ⊢
    simp only [Instr.isOperand, Bool.and_eq_true] at hi
    simp only [Instr.layout, List.cons_append, List.nil_append, encodableAll, Piece.encodable,
      Bool.true_and, Bool.and_eq_true, decide_eq_true_eq] at h
    have hpos := one_le_length_ty t
    simp only [List.length_append, List.length_cons] at hdepth
    obtain ⟨depth, rfl⟩ : ∃ d, depth = d + 1 := ⟨depth - 1, by omega⟩
    have hmembers := reads_reversedOperands offset members depth hi.2 h.2.2 (by omega)
    exact reads_container h.1 hi.1 h.2.1 hmembers
  | _ => cases hi

theorem reads_reversedOperands (offset : Ident → Nat) (is : List Instr) (depth : Nat)
    (his : Instr.areOperands is = true) (h : encodableAll (Instr.layoutReversed is) = true)
    (hdepth : (bytesAll offset (Instr.layoutReversed is)).length ≤ depth) :
    Reads (many (operandWithin depth) is.length) (bytesAll offset (Instr.layoutReversed is))
      (Instr.recoveredOperands is).reverse := by
  cases is with
  | nil => exact reads_pure []
  | cons i is =>
    simp only [Instr.areOperands, Bool.and_eq_true] at his
    simp only [Instr.layoutReversed, Piece.encodableAll_append, Bool.and_eq_true] at h
    simp only [Instr.layoutReversed, Piece.bytesAll_append, List.length_append] at hdepth ⊢
    have hlast := reads_operandWithin offset i depth his.1 h.2 (by omega)
    have hothers := reads_reversedOperands offset is depth his.2 h.1 (by omega)
    refine (hothers.snoc hlast).cast rfl ?_
    simp only [Instr.recoveredOperands, List.reverse_cons]

end

theorem reads_operand (offset : Ident → Nat) (i : Instr) (hi : i.isOperand = true)
    (h : encodableAll i.layout = true) :
    Reads operand (bytesAll offset i.layout) i.recoveredOperand :=
  Reads.remaining fun depth hdepth => reads_operandWithin offset i depth hi h hdepth

end Decoder

end BytecodeCompiler
