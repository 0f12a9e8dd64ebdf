import BytecodeCompiler.Proofs.Code.Locality
import BytecodeCompiler.Proofs.Code.Reencoding

-- Reading on a machine with words of 64 bits. There a position is a word, and nothing says in
-- advance how deep the reading goes: types and values are read by functions that call themselves.
-- What the machine does where a sum outgrows a word is left open, and so is what it does in a call
-- that is too deep and how deep that is. On every code whose size is a signed word the decoders do
-- on the machine what they do elsewhere. So the calls come to an end, no position outgrows a word,
-- and where a read stops is inside the code.

namespace BytecodeCompiler

/-! ## The machine -/

namespace Source

/-- The code on a machine with words of 64 bits: bytes are taken where the sum of the position and
their number is a word. -/
def onWords (code : Code) (overflow : Nat → EStateM Fault Nat (List UInt8)) : Source where
  code := code
  take n := do if (← get) + n < 0x10000000000000000 then takeFrom code n else overflow n

theorem code_onWords (code : Code) (overflow : Nat → EStateM Fault Nat (List UInt8)) :
    (onWords code overflow).code = code := rfl

end Source

/-- Where in the code a fault of reading was met. -/
def Fault.offset? : Fault → Option Nat
  | .unknownTypeCode _ offset => some offset
  | .unknownOpcode _ offset => some offset
  | .unexpectedEnd offset => some offset
  | .invalidEncoding offset _ => some offset
  | _ => none

namespace Decoder

variable {α β : Type} {code : Code} {overflow : Nat → EStateM Fault Nat (List UInt8)}
  {pos start : Nat}

theorem readFrom_bind_of_ok {w : Decoder α} {g : α → Decoder β} {source : Source} {stop : Nat}
    {a : α} (h : w.readFrom source pos = .ok a stop) :
    (w >>= g).readFrom source pos = (g a).readFrom source stop := bind_of_ok h

theorem readFrom_bind_of_error {w : Decoder α} {g : α → Decoder β} {source : Source} {stop : Nat}
    {fault : Fault} (h : w.readFrom source pos = .error fault stop) :
    (w >>= g).readFrom source pos = .error fault stop := bind_of_error h

theorem readFrom_take_onWords {n : Nat} (h : pos + n < 0x10000000000000000) :
    (take n).readFrom (.onWords code overflow) pos = (take n).readAt code pos := by
  change (if pos + n < 0x10000000000000000 then _ else _ : EStateM Fault Nat _).run pos = _
  rw [if_pos h]
  rfl

/-! ## Running alike -/

/-- A read that started at `pos` has ended between there and the end of the code. So is the place
that a fault is about. -/
inductive EndsInside (code : Code) (pos : Nat) : EStateM.Result Fault Nat α → Prop where
  | ok {a : α} {stop : Nat} (hle : pos ≤ stop) (hsize : stop ≤ code.size) :
    EndsInside code pos (.ok a stop)
  | error {fault : Fault} {stop offset : Nat} (hfault : fault.offset? = some offset)
    (hoffset : pos ≤ offset ∧ offset ≤ code.size) (hle : pos ≤ stop) (hsize : stop ≤ code.size) :
    EndsInside code pos (.error fault stop)

theorem EndsInside.mono {result : EStateM.Result Fault Nat α} {pos' : Nat}
    (h : EndsInside code pos' result) (hpos : pos ≤ pos') : EndsInside code pos result := by
  cases h with
  | ok hle hsize => exact .ok (by omega) hsize
  | error hfault hoffset hle hsize => exact .error hfault (by omega) (by omega) hsize

/-- What is left at `mid` of a read that started at `pos`: on the machine `w` does what `d` does
elsewhere, and ends inside the code. -/
def RunsAt (code : Code) (overflow : Nat → EStateM Fault Nat (List UInt8)) (pos mid : Nat)
    (w d : Decoder α) : Prop :=
  w.readFrom (.onWords code overflow) mid = d.readAt code mid ∧
    EndsInside code pos (d.readAt code mid)

theorem RunsAt.bind {mid : Nat} {w d : Decoder α} {g f : α → Decoder β}
    (hw : RunsAt code overflow pos mid w d)
    (hg : ∀ a stop, d.readAt code mid = .ok a stop → pos ≤ stop → stop ≤ code.size →
      RunsAt code overflow pos stop (g a) (f a)) :
    RunsAt code overflow pos mid (w >>= g) (d >>= f) := by
  obtain ⟨hran, hends⟩ := hw
  unfold RunsAt
  generalize hread : d.readAt code mid = read at hran hends
  cases hends with
  | ok hle hsize =>
    rw [readFrom_bind_of_ok hran, readAt_bind_of_ok hread]
    exact hg _ _ hread hle hsize
  | error hfault hoffset hle hsize =>
    rw [readFrom_bind_of_error hran, readAt_bind_of_error hread]
    exact ⟨rfl, .error hfault hoffset hle hsize⟩

/-- Where the first step fails, what would follow does not matter. -/
theorem RunsAt.bind_of_error {mid stop : Nat} {w d : Decoder α} {g : α → Decoder β}
    {failing : Decoder β} {fault : Fault} (hw : RunsAt code overflow pos mid w d)
    (hd : d.readAt code mid = .error fault stop)
    (hfailing : failing.readAt code mid = .error fault stop) :
    RunsAt code overflow pos mid (w >>= g) failing := by
  obtain ⟨hran, hends⟩ := hw
  rw [hd] at hran hends
  cases hends with
  | error hfault hoffset hle hsize =>
    unfold RunsAt
    rw [readFrom_bind_of_error hran, hfailing]
    exact ⟨rfl, .error hfault hoffset hle hsize⟩

/-- A look at the position or at the source takes no bytes. -/
theorem RunsAt.positioned {mid : Nat} {g f : Nat → Decoder α}
    (h : RunsAt code overflow pos mid (g mid) (f mid)) :
    RunsAt code overflow pos mid (position >>= g) (position >>= f) := h

theorem RunsAt.sourced {mid : Nat} {g f : Source → Decoder α}
    (h : RunsAt code overflow pos mid (g (.onWords code overflow)) (f (.ofCode code))) :
    RunsAt code overflow pos mid (read >>= g) (read >>= f) := h

/-- On a code whose size is a signed word, `w` does on the machine what `d` does elsewhere, from a
position on. -/
def RunsFrom (code : Code) (overflow : Nat → EStateM Fault Nat (List UInt8)) (start : Nat)
    (w d : Decoder α) : Prop :=
  code.size < 0x8000000000000000 → ∀ pos, start ≤ pos → pos ≤ code.size →
    RunsAt code overflow pos pos w d

theorem RunsFrom.bind_of_gives {w d : Decoder α} {g f : α → Decoder β} {P : α → Prop}
    (hw : RunsFrom code overflow start w d) (hd : Gives d P)
    (hg : ∀ a, P a → RunsFrom code overflow start (g a) (f a)) :
    RunsFrom code overflow start (w >>= g) (d >>= f) := by
  intro hsize pos hstart hpos
  apply (hw hsize pos hstart hpos).bind
  intro a stop hread hle hstop
  obtain ⟨hran, hends⟩ := hg a (hd code pos a stop hread) hsize stop (by omega) hstop
  exact ⟨hran, hends.mono hle⟩

theorem RunsFrom.bind {w d : Decoder α} {g f : α → Decoder β}
    (hw : RunsFrom code overflow start w d)
    (hg : ∀ a, RunsFrom code overflow start (g a) (f a)) :
    RunsFrom code overflow start (w >>= g) (d >>= f) :=
  hw.bind_of_gives (fun _ _ _ _ _ => trivial) fun a (_ : True) => hg a

/-- What is done behind at least one byte has to be the same only from the next position on. -/
theorem RunsFrom.behind {w d : Decoder α} {g f : α → Decoder β}
    (hw : RunsFrom code overflow start w d) (hd : ReadsOnly d fun bs _ => 1 ≤ bs.length)
    (hg : ∀ a, RunsFrom code overflow (start + 1) (g a) (f a)) :
    RunsFrom code overflow start (w >>= g) (d >>= f) := by
  intro hsize pos hstart hpos
  apply (hw hsize pos hstart hpos).bind
  intro a stop hread hle hstop
  obtain ⟨bs, -, rfl, hone⟩ := hd code pos a stop hread
  obtain ⟨hran, hends⟩ := hg a hsize _ (by omega) hstop
  exact ⟨hran, hends.mono hle⟩

theorem runsFrom_pure (a : α) : RunsFrom code overflow start (pure a) (pure a) :=
  fun _ pos _ hpos => ⟨rfl, .ok (Nat.le_refl pos) hpos⟩

theorem RunsFrom.map {w d : Decoder α} (f : α → β) (hw : RunsFrom code overflow start w d) :
    RunsFrom code overflow start (do return f (← w)) (do return f (← d)) :=
  hw.bind fun a => runsFrom_pure (f a)

theorem runsFrom_invalid (detail : String) :
    RunsFrom code overflow start (invalid detail : Decoder α) (invalid detail) :=
  fun _ pos _ hpos => ⟨rfl, .error rfl ⟨Nat.le_refl pos, hpos⟩ (Nat.le_refl pos) hpos⟩

/-! ## Bytes, codes and characters -/

/-- The position and the number of the bytes are signed words, so their sum is a word. -/
theorem runsFrom_take {n : Nat} (hn : n < 0x8000000000000000) :
    RunsFrom code overflow start (take n) (take n) := by
  intro hsize pos hstart hpos
  refine ⟨readFrom_take_onWords (by omega), ?_⟩
  by_cases hfits : pos + n ≤ code.size
  · rw [readAt_take_of_le hfits]
    exact .ok (by omega) hfits
  · rw [readAt_take_of_lt (by omega)]
    exact .error rfl ⟨Nat.le_refl pos, hpos⟩ (Nat.le_refl pos) hpos

theorem runsFrom_nat {width : Nat} (hwidth : width < 0x8000000000000000) :
    RunsFrom code overflow start (nat width) (nat width) :=
  (runsFrom_take hwidth).map leNat

theorem runsFrom_byte : RunsFrom code overflow start byte byte :=
  (runsFrom_nat (by omega)).map UInt8.ofNat

theorem runsFrom_bool : RunsFrom code overflow start bool bool :=
  runsFrom_byte.map (· != 0)

theorem runsFrom_int8 : RunsFrom code overflow start int8 int8 :=
  runsFrom_byte.map UInt8.toInt8

theorem runsFrom_int16 : RunsFrom code overflow start int16 int16 :=
  (runsFrom_nat (by omega)).map fun n => (UInt16.ofNat n).toInt16

theorem runsFrom_short : RunsFrom code overflow start short short :=
  (runsFrom_nat (by omega)).map UInt16.ofNat

theorem runsFrom_int : RunsFrom code overflow start int int :=
  (runsFrom_nat (by omega)).map fun n => (UInt64.ofNat n).toInt64

theorem runsFrom_float32 : RunsFrom code overflow start float32 float32 :=
  (runsFrom_nat (by omega)).map UInt32.ofNat

theorem runsFrom_float64 : RunsFrom code overflow start float64 float64 :=
  (runsFrom_nat (by omega)).map UInt64.ofNat

theorem runeWidth_le (b : UInt8) : runeWidth b ≤ 4 := by
  unfold runeWidth
  repeat' split
  all_goals omega

theorem runsFrom_charFrom (first : UInt8) :
    RunsFrom code overflow start (charFrom first) (charFrom first) := by
  have hwidth := runeWidth_le first
  apply (runsFrom_take (by omega)).bind
  intro bytes
  cases (ofTextBytes? bytes).bind (·.toList.head?) with
  | none => exact runsFrom_invalid _
  | some c => exact runsFrom_pure c

/-- The first byte is looked at in the code itself, so no sum is made for it. -/
theorem runsFrom_char : RunsFrom code overflow start char char := by
  intro hsize pos hstart hpos
  refine RunsAt.positioned (RunsAt.sourced ?_)
  simp only [Source.code_onWords, Source.code_ofCode]
  cases code[pos]? with
  | none => exact ⟨rfl, .error rfl ⟨Nat.le_refl pos, hpos⟩ (Nat.le_refl pos) hpos⟩
  | some first => exact runsFrom_charFrom first hsize pos hstart hpos

/-- A byte that is no code is complained about where it stands, which is behind the position by
then. -/
theorem runsFrom_typeCode : RunsFrom code overflow start typeCode typeCode := by
  intro hsize pos hstart hpos
  refine RunsAt.positioned ((runsFrom_byte hsize pos hstart hpos).bind ?_)
  intro b stop hread hle hstop
  cases TypeCode.ofByte? b with
  | none => exact ⟨rfl, .error rfl ⟨Nat.le_refl pos, hpos⟩ hle hstop⟩
  | some c => exact ⟨rfl, .ok hle hstop⟩

/-! ## Texts and identifiers -/

theorem runsFrom_textLength : RunsFrom code overflow start textLength textLength := by
  apply runsFrom_typeCode.bind
  intro c
  cases c with
  | int8 => exact runsFrom_int8.map Int8.toInt
  | int16 => exact runsFrom_int16.map Int16.toInt
  | int => exact runsFrom_int.map Int64.toInt
  | _ => exact runsFrom_invalid _

theorem runsFrom_text : RunsFrom code overflow start text text := by
  apply runsFrom_textLength.bind_of_gives gives_textLength
  intro len hlen
  by_cases hneg : len < 0
  · simp only [hneg, if_true]
    exact runsFrom_invalid _
  · simp only [hneg, if_false]
    apply (runsFrom_take (by omega)).bind
    intro bytes
    cases ofTextBytes? bytes with
    | none => exact runsFrom_invalid _
    | some s => exact runsFrom_pure s

theorem runsFrom_ident : RunsFrom code overflow start ident ident := by
  apply runsFrom_byte.bind
  intro tag
  cases IdentMode.ofTag? tag with
  | none => exact runsFrom_invalid _
  | some mode =>
    cases mode with
    | byte => exact runsFrom_byte.map Ident.byte
    | short => exact runsFrom_short.map Ident.short
    | name =>
      apply runsFrom_byte.bind
      intro len
      have hlen := len.toNat_lt
      apply (runsFrom_take (by omega)).bind
      intro bytes
      cases ofTextBytes? bytes with
      | none => exact runsFrom_invalid _
      | some s => exact runsFrom_pure _

/-! ## Types -/

theorem runsFrom_typeCount : RunsFrom code overflow start typeCount typeCount := by
  apply runsFrom_int8.bind
  intro count
  by_cases hneg : count.toInt < 0
  · simp only [hneg, if_true]
    exact runsFrom_invalid _
  · simp only [hneg, if_false]
    exact runsFrom_pure _

theorem runsFrom_many {w d : Decoder α} (hw : RunsFrom code overflow start w d) (count : Nat) :
    RunsFrom code overflow start (many w count) (many d count) := by
  induction count with
  | zero => exact runsFrom_pure []
  | succ count ih => exact hw.bind fun a => ih.map (a :: ·)

theorem runsFrom_field {w d : Decoder Ty} (hw : RunsFrom code overflow start w d) :
    RunsFrom code overflow start (field w) (field d) :=
  runsFrom_ident.bind fun name => hw.map (name, ·)

/-- Every call goes over a byte before it makes another one, and at the end of the code there is no
type code. So more calls than there are bytes left are never made. -/
theorem runsFrom_tyWithin (deeper : Decoder Ty) (calls depth : Nat)
    (hcalls : code.size < start + calls) (hdepth : code.size ≤ start + depth) :
    RunsFrom code overflow start (tyCalls deeper calls) (tyWithin depth) := by
  induction calls generalizing start depth with
  | zero =>
    -- The start is behind the end of the code.
    intro _ pos hstart hpos
    omega
  | succ calls ih =>
    cases depth with
    | zero =>
      -- The start is the end of the code, where the decoder finds nothing at any depth.
      intro hsize pos hstart hpos
      have hend : code.size ≤ pos := by omega
      exact (runsFrom_typeCode hsize pos hstart hpos).bind_of_error (readAt_typeCode_of_le hend)
        (readAt_tyWithin_of_le 0 hend)
    | succ depth =>
      have hty : RunsFrom code overflow (start + 1) (tyCalls deeper calls) (tyWithin depth) :=
        ih depth (by omega) (by omega)
      have htys := runsFrom_many hty
      have hfields := runsFrom_many (runsFrom_field hty)
      apply runsFrom_typeCode.behind (local_typeCode.one_le rfl)
      intro c
      cases c with
      | array => exact hty.map Ty.array
      | tuple => exact runsFrom_typeCount.bind fun count => (htys count).map Ty.tuple
      | union => exact runsFrom_typeCount.bind fun count => (htys count).map Ty.union
      | struct => exact runsFrom_typeCount.bind fun count => (hfields count).map Ty.struct
      | lambda =>
        apply hty.bind
        intro result
        apply runsFrom_typeCount.bind
        intro count
        apply (hfields count).bind
        intro params
        exact runsFrom_bool.map (Ty.lambda params result)
      | ref => exact runsFrom_ident.map Ty.ref
      | objRef => exact runsFrom_ident.map Ty.objRef
      | ident => exact runsFrom_ident.map Ty.ident
      | _ => exact runsFrom_pure _

theorem runsFrom_ty (deeper : Decoder Ty) {calls : Nat} (hcalls : code.size < start + calls) :
    RunsFrom code overflow start (tyCalls deeper calls) ty := by
  intro hsize pos hstart hpos
  exact runsFrom_tyWithin deeper calls (code.size - pos) (by omega) (by omega) hsize pos
    (Nat.le_refl pos) hpos

/-! ## Values -/

theorem runsFrom_members {w d : Decoder Value} (hw : RunsFrom code overflow start w d) :
    RunsFrom code overflow start (members w) (members d) :=
  runsFrom_byte.bind fun count => runsFrom_many hw count.toNat

theorem runsFrom_contents {w d : Decoder Value} (hw : RunsFrom code overflow start w d) (t : Ty) :
    RunsFrom code overflow start (contents w t) (contents d t) := by
  have hmembers := runsFrom_members hw
  cases t with
  | nil => exact runsFrom_pure _
  | bool => exact runsFrom_bool.map Value.bool
  | int => exact runsFrom_int.map Value.int
  | int8 => exact runsFrom_int8.map Value.int8
  | int16 => exact runsFrom_int16.map Value.int16
  | float32 => exact runsFrom_float32.map Value.float32
  | float64 => exact runsFrom_float64.map Value.float64
  | complex64 =>
    exact runsFrom_float32.bind fun re => runsFrom_float32.map (Value.complex64 re)
  | complex128 =>
    exact runsFrom_float64.bind fun re => runsFrom_float64.map (Value.complex128 re)
  | string => exact runsFrom_text.map Value.string
  | char => exact runsFrom_char.map Value.char
  | tuple members => exact hmembers.map Value.tuple
  | array elem => exact hmembers.map (Value.array elem)
  | struct fields => exact hmembers.map (Value.struct fields)
  | objRef name => exact hw.map (Value.named name)
  | any | union | lambda | ref | ident => exact runsFrom_invalid _

/-- Reading the type of a value is a call too, so there is one more of them. -/
theorem runsFrom_valueWithin (deeperTy : Decoder Ty) (deeper : Decoder Value) (calls depth : Nat)
    (hcalls : code.size + 1 < start + calls) (hdepth : code.size ≤ start + depth) :
    RunsFrom code overflow start (valueCalls (tyCalls deeperTy) deeper calls)
      (valueWithin depth) := by
  induction calls generalizing start depth with
  | zero =>
    intro _ pos hstart hpos
    omega
  | succ calls ih =>
    have hty : RunsFrom code overflow start (tyCalls deeperTy calls) ty :=
      runsFrom_ty deeperTy (by omega)
    cases depth with
    | zero =>
      intro hsize pos hstart hpos
      have hend : code.size ≤ pos := by omega
      exact (hty hsize pos hstart hpos).bind_of_error (readAt_tyWithin_of_le _ hend)
        (readAt_valueWithin_of_le 0 hend)
    | succ depth =>
      apply hty.behind (local_ty.one_le rfl)
      intro t
      exact runsFrom_contents (ih depth (by omega) (by omega)) t

theorem runsFrom_value (deeperTy : Decoder Ty) (deeper : Decoder Value) {calls : Nat}
    (hcalls : code.size + 1 < start + calls) :
    RunsFrom code overflow start (valueCalls (tyCalls deeperTy) deeper calls) value := by
  intro hsize pos hstart hpos
  exact runsFrom_valueWithin deeperTy deeper calls (code.size - pos) (by omega) (by omega) hsize
    pos (Nat.le_refl pos) hpos

/-! ## Reading that ends inside the code -/

/-- On the machine the read comes to an end with every position a word, as the decoder does. If it
gives something, it has moved on. If it fails, it has not moved back, and complains about a place
that is not before where it started. In no case does it leave the code. -/
def EndsSafely (machine : Source) (w d : Decoder α) (pos : Nat) : Prop :=
  (∃ a stop, w.readFrom machine pos = .ok a stop ∧ d.readAt machine.code pos = .ok a stop ∧
    pos < stop ∧ stop ≤ machine.code.size) ∨
  ∃ fault stop offset, w.readFrom machine pos = .error fault stop ∧
    d.readAt machine.code pos = .error fault stop ∧ pos ≤ stop ∧ stop ≤ machine.code.size ∧
    fault.offset? = some offset ∧ pos ≤ offset ∧ offset ≤ machine.code.size

theorem RunsFrom.endsSafely {w d : Decoder α} (hw : RunsFrom code overflow pos w d)
    (hd : ReadsOnly d fun bs _ => 1 ≤ bs.length) (hsize : code.size < 0x8000000000000000)
    (hpos : pos ≤ code.size) : EndsSafely (.onWords code overflow) w d pos := by
  obtain ⟨hran, hends⟩ := hw hsize pos (Nat.le_refl pos) hpos
  generalize hread : d.readAt code pos = read at hran hends
  cases hends with
  | ok hle hstop =>
    obtain ⟨bs, -, rfl, hone⟩ := hd code pos _ _ hread
    exact Or.inl ⟨_, _, hran, hread, by omega, hstop⟩
  | error hfault hoffset hle hstop =>
    exact Or.inr ⟨_, _, _, hran, hread, hle, hstop, hfault, hoffset⟩

end Decoder

open Decoder

/-- Texts, identifiers, types and values are read safely from every code that a machine with words
of 64 bits can hold. What the machine would do with a larger sum does not matter. A type takes at
most one call more than there are bytes left, and a value at most two: what would be done in deeper
calls does not matter either. -/
theorem reading_ends_inside_code (code : Code)
    (overflow : Nat → EStateM Fault Nat (List UInt8)) (pos : Nat)
    (hsize : code.size ≤ 0x7fffffffffffffff) (hpos : pos ≤ code.size) :
    let machine := Source.onWords code overflow
    EndsSafely machine text text pos ∧ EndsSafely machine ident ident pos ∧
    (∀ deeper calls, code.size - pos < calls →
      EndsSafely machine (tyCalls deeper calls) ty pos) ∧
    ∀ deeperTy deeper calls, code.size - pos + 1 < calls →
      EndsSafely machine (valueCalls (tyCalls deeperTy) deeper calls) value pos := by
  have hlt : code.size < 0x8000000000000000 := by omega
  refine ⟨runsFrom_text.endsSafely (local_text.one_le rfl) hlt hpos,
    runsFrom_ident.endsSafely (local_ident.one_le rfl) hlt hpos, ?_, ?_⟩
  · intro deeper calls hcalls
    have hty : RunsFrom code overflow pos (tyCalls deeper calls) ty := runsFrom_ty deeper (by omega)
    exact hty.endsSafely (local_ty.one_le rfl) hlt hpos
  · intro deeperTy deeper calls hcalls
    have hvalue : RunsFrom code overflow pos (valueCalls (tyCalls deeperTy) deeper calls) value :=
      runsFrom_value deeperTy deeper (by omega)
    exact hvalue.endsSafely (local_value.one_le rfl) hlt hpos

/-- A text that says it has as many bytes as can be said is read safely, and so is a tuple of
nothings, which ends with the code after no more than seven calls. -/
theorem reading_ends_inside_code_longest :
    let long : Code := #[7, 3, 0xff, 0xff, 0xff, 0xff, 0xff, 0xff, 0xff, 0x7f, 104]
    let nothings : Code := #[13, 0, 2, 1, 1]
    long.size ≤ 0x7fffffffffffffff ∧ 1 ≤ long.size ∧
    (∀ overflow, EndsSafely (.onWords long overflow) text text 1) ∧
    ∀ overflow deeperTy deeper,
      (valueCalls (tyCalls deeperTy) deeper 7).readFrom (.onWords nothings overflow) 0 =
        .ok (.tuple [.nil, .nil]) nothings.size := by
  intro long nothings
  refine ⟨by decide, by decide, fun overflow => ?_, fun overflow deeperTy deeper => ?_⟩
  · exact (reading_ends_inside_code long overflow 1 (by decide) (by decide)).1
  · have hvalue : value.readAt nothings 0 = .ok (.tuple [.nil, .nil]) nothings.size := rfl
    obtain ⟨-, -, -, hsafe⟩ := reading_ends_inside_code nothings overflow 0 (by decide) (by decide)
    rcases hsafe deeperTy deeper 7 (by decide) with
      ⟨v, stop, hran, hread, -⟩ | ⟨fault, stop, offset, -, hread, -⟩
    · cases hvalue.symm.trans hread
      exact hran
    · cases hvalue.symm.trans hread

end BytecodeCompiler
