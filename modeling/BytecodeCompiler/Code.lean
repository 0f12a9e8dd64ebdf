import BytecodeCompiler.Fault

-- Code buffers. A buffer only grows at its end, apart from the two-byte slots that are
-- reserved first and patched later. Numbers are little-endian.

namespace BytecodeCompiler

/-- The bytes of a program. -/
abbrev Code := Array UInt8

/-! ## Little-endian numbers -/

/-- The low `width` bytes of a number, lowest first. -/
def leBytes : (width : Nat) → Nat → List UInt8
  | 0, _ => []
  | width + 1, n => UInt8.ofNat n :: leBytes width (n / 256)

/-- The number that the bytes stand for. -/
def leNat : List UInt8 → Nat
  | [] => 0
  | b :: bs => b.toNat + 256 * leNat bs

/-- The bytes of a text. -/
def textBytes (s : String) : List UInt8 := s.toUTF8.data.toList

/-- The text that the bytes stand for, if they are valid UTF-8. -/
def ofTextBytes? (bs : List UInt8) : Option String := String.fromUTF8? ⟨bs.toArray⟩

namespace Code

/-- Whether two bytes stand at an offset. -/
def hasSlot (code : Code) (offset : Nat) : Bool := offset + 2 ≤ code.size

/-- Overwrite the two bytes at an offset. -/
def patch (code : Code) (offset : Nat) (value : UInt16) : Code :=
  (code.setIfInBounds offset (UInt8.ofNat value.toNat)).setIfInBounds (offset + 1)
    (UInt8.ofNat (value.toNat / 256))

end Code

/-! ## Writing

What was written before a fault stays in the buffer. -/

/-- A step that writes to a code buffer. -/
abbrev Encoder := EStateM Fault Code

namespace Encoder

/-- Append bytes. -/
def put (bs : List UInt8) : Encoder Unit := modify fun (code : Code) => code ++ bs

/-- The offset of the next byte. -/
def offset : Encoder Nat := do return (← get).size

/-- Refuse to write, at the current offset. -/
def refuse {α : Type} (detail : String) : Encoder α := do
  throw (.invalidEncoding (← offset) detail)

def byte (b : UInt8) : Encoder Unit := put [b]

def bool (b : Bool) : Encoder Unit := byte (if b then 1 else 0)

def int8 (n : Int8) : Encoder Unit := byte n.toUInt8

def int16 (n : Int16) : Encoder Unit := put (leBytes 2 n.toUInt16.toNat)

def short (n : UInt16) : Encoder Unit := put (leBytes 2 n.toNat)

def int (n : Int64) : Encoder Unit := put (leBytes 8 n.toUInt64.toNat)

def float32 (bits : UInt32) : Encoder Unit := put (leBytes 4 bits.toNat)

def float64 (bits : UInt64) : Encoder Unit := put (leBytes 8 bits.toNat)

def complex64 (re im : UInt32) : Encoder Unit := do
  float32 re
  float32 im

def complex128 (re im : UInt64) : Encoder Unit := do
  float64 re
  float64 im

/-- A character as UTF-8. -/
def char (c : Char) : Encoder Unit := put (textBytes (String.singleton c))

/-- Two zero bytes to be patched later. The result is their offset. -/
def reserve : Encoder Nat := do
  let slot ← offset
  short 0
  return slot

/-- Overwrite the two bytes at an offset. They must be there. -/
def patch (offset : Nat) (value : UInt16) : Encoder Unit := fun code =>
  if code.hasSlot offset then .ok () (code.patch offset value)
  else .error (.patchOutside offset) code

end Encoder

end BytecodeCompiler
