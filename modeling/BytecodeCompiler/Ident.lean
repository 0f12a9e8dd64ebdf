-- Identifiers: the names of variables, fields, labels and packages, and the two
-- numeric forms that stand for machine registers and compact names.

namespace BytecodeCompiler

/-- How an identifier is written: the tag in front of it. -/
inductive IdentMode where
  | byte
  | short
  | name
deriving DecidableEq, Inhabited

namespace IdentMode

def all : List IdentMode := [.byte, .short, .name]

/-- The tag byte in front of an encoded identifier. -/
def tag : IdentMode → UInt8
  | .byte => 0
  | .short => 1
  | .name => 2

def ofTag? (b : UInt8) : Option IdentMode := all.find? (·.tag == b)

end IdentMode

/-- An identifier. A byte is a register number, a short is a compact number, and a name is
text from the source or from a name supply. -/
inductive Ident where
  | byte (n : UInt8)
  | short (n : UInt16)
  | name (s : String)
deriving DecidableEq, Inhabited

namespace Ident

/-- The longest name, in bytes, that its one length byte can announce. -/
def maxName : Nat := 255

/-- A name that is short enough to be encoded. -/
def ofName? (s : String) : Option Ident :=
  if s.utf8ByteSize ≤ maxName then some (.name s) else none

def mode : Ident → IdentMode
  | .byte _ => .byte
  | .short _ => .short
  | .name _ => .name

/-- The text of a name. -/
def name? : Ident → Option String
  | .name s => some s
  | _ => none

/-- How an identifier reads in a listing. -/
def text : Ident → String
  | .byte n => "%" ++ toString n.toNat
  | .short n => "@" ++ toString n.toNat
  | .name s => s

/-- Bytes come before shorts and shorts before names. Names go by their UTF-8 bytes. -/
def le : Ident → Ident → Bool
  | .byte a, .byte b => a ≤ b
  | .byte _, _ => true
  | .short _, .byte _ => false
  | .short a, .short b => a ≤ b
  | .short _, .name _ => true
  | .name a, .name b => a.toUTF8.toList ≤ b.toUTF8.toList
  | .name _, _ => false

/-- The identifiers in ascending order. -/
def sort (is : List Ident) : List Ident := is.mergeSort le

end Ident

end BytecodeCompiler
