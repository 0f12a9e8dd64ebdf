import BytecodeCompiler.Ident
import BytecodeCompiler.Span

-- What can go wrong inside the compiler, and the wording of each message.
-- A well-formed checked program causes none of these.

namespace BytecodeCompiler

/-- A broken promise inside the compiler or in the trees and bytes it is given. -/
inductive Fault where
  /-- A node of this kind has no rule where it stands. -/
  | unknownNode (kind : String) (span : Span)
  /-- A label was defined a second time. -/
  | duplicateLabel (label : Ident)
  /-- Jumps were left whose labels nobody defined. -/
  | danglingMarks (labels : List Ident)
  /-- A name does not fit its one length byte. -/
  | identTooLong (len : Nat)
  /-- The checker left a slot empty that lowering reads. -/
  | missingInference (what : String) (span : Span)
  /-- A node in value position lowered to nothing. -/
  | noValue (kind : String) (span : Span)
  /-- A break with no loop around it. -/
  | breakOutsideLoop (span : Span)
  /-- A label stands too far into the code for a jump operand. -/
  | labelOutOfRange (label : Ident) (offset : Nat)
  /-- A block is too long for its length field. -/
  | blockTooLarge (len : Nat)
  /-- An operator token without a meaning. -/
  | unmappedToken (token : String)
  /-- A byte that is no type code. -/
  | unknownTypeCode (code : UInt8) (offset : Nat)
  /-- A byte that is no opcode. -/
  | unknownOpcode (code : UInt8) (offset : Nat)
  /-- The code ended inside a value. -/
  | unexpectedEnd (offset : Nat)
  /-- A value that cannot be written, or bytes that stand for no value. -/
  | invalidEncoding (offset : Nat) (detail : String)
  /-- A patch reaches past the end of the code. -/
  | patchOutside (offset : Nat)
  /-- A node number that the tree does not have. -/
  | noSuchNode (id : Nat)
  /-- A node that is reached from itself. -/
  | cyclicTree (id : Nat)
  /-- The supply of fresh names is used up. -/
  | namesExhausted
deriving DecidableEq, Inhabited

/-- The low hexadecimal digit of a number. -/
def hexDigit (n : Nat) : Char := ("0123456789abcdef".toList).getD (n % 16) '0'

/-- A byte as two hexadecimal digits. -/
def hexByte (b : UInt8) : String :=
  String.ofList [hexDigit (b.toNat / 16), hexDigit b.toNat]

namespace Fault

/-- The wording of a fault. -/
def message : Fault → String
  | .unknownNode kind span => "no lowering rule for " ++ kind ++ " node at " ++ span.text
  | .duplicateLabel label => "label '" ++ label.text ++ "' defined twice"
  | .danglingMarks labels =>
    "undefined labels after emission: " ++ ", ".intercalate (labels.map Ident.text)
  | .identTooLong len => "identifier of " ++ toString len ++ " bytes exceeds the 255 byte limit"
  | .missingInference what span => "missing inferred " ++ what ++ " at " ++ span.text
  | .noValue kind span => kind ++ " node at " ++ span.text ++ " produced no value"
  | .breakOutsideLoop span => "break outside of a loop at " ++ span.text
  | .labelOutOfRange label offset =>
    "label '" ++ label.text ++ "' at offset " ++ toString offset ++ " is out of 16-bit range"
  | .blockTooLarge len => "block of " ++ toString len ++ " bytes exceeds the 16-bit length prefix"
  | .unmappedToken token => "token '" ++ token ++ "' has no grammar mapping"
  | .unknownTypeCode code offset =>
    "unknown type code 0x" ++ hexByte code ++ " at offset " ++ toString offset
  | .unknownOpcode code offset =>
    "unknown opcode 0x" ++ hexByte code ++ " at offset " ++ toString offset
  | .unexpectedEnd offset => "unexpected end of bytecode at offset " ++ toString offset
  | .invalidEncoding offset detail =>
    "invalid encoding at offset " ++ toString offset ++ ": " ++ detail
  | .patchOutside offset => "patch at offset " ++ toString offset ++ " is outside the code"
  | .noSuchNode id => "no node " ++ toString id ++ " in the tree"
  | .cyclicTree id => "node " ++ toString id ++ " is its own ancestor"
  | .namesExhausted => "no fresh name is left"

end Fault

/-- A name as an identifier, or the fault of a name that is too long. -/
def Ident.ofName (s : String) : Except Fault Ident :=
  match Ident.ofName? s with
  | some i => .ok i
  | none => .error (.identTooLong s.utf8ByteSize)

end BytecodeCompiler
