import BytecodeCompiler.Fault

-- The small closed vocabularies of the instruction set: operators, in-place changes of
-- collections, and the ways a package is taken into use.

namespace BytecodeCompiler

/-- What the operation instruction computes. -/
inductive Operator where
  | add
  | subtract
  | multiply
  | divide
  | modulo
  | power
  | less
  | lessEqual
  | greater
  | greaterEqual
  | equal
  | notEqual
  | and
  | or
  | not
  | negate
deriving DecidableEq, Inhabited

namespace Operator

def all : List Operator :=
  [.add, .subtract, .multiply, .divide, .modulo, .power, .less, .lessEqual, .greater,
    .greaterEqual, .equal, .notEqual, .and, .or, .not, .negate]

/-- The byte that stands for the operator in the code. -/
def code : Operator → UInt8
  | .add => 0
  | .subtract => 1
  | .multiply => 2
  | .divide => 3
  | .modulo => 4
  | .power => 5
  | .less => 6
  | .lessEqual => 7
  | .greater => 8
  | .greaterEqual => 9
  | .equal => 10
  | .notEqual => 11
  | .and => 12
  | .or => 13
  | .not => 14
  | .negate => 15

def ofByte? (b : UInt8) : Option Operator := all.find? (·.code == b)

/-- The operator's word in a listing. -/
def name : Operator → String
  | .add => "add"
  | .subtract => "sub"
  | .multiply => "mul"
  | .divide => "div"
  | .modulo => "mod"
  | .power => "pow"
  | .less => "lt"
  | .lessEqual => "le"
  | .greater => "gt"
  | .greaterEqual => "ge"
  | .equal => "eq"
  | .notEqual => "ne"
  | .and => "and"
  | .or => "or"
  | .not => "not"
  | .negate => "neg"

def ofName? (s : String) : Option Operator := all.find? (·.name == s)

/-- Whether the operator takes one operand. -/
def isUnary : Operator → Bool
  | .not | .negate => true
  | _ => false

/-- Whether the result is a truth value whatever the operands are. -/
def isLogical : Operator → Bool
  | .less | .lessEqual | .greater | .greaterEqual | .equal | .notEqual | .and | .or => true
  | _ => false

/-- The operator of a token between two operands. A minus here subtracts. -/
def ofSymbol (symbol : String) : Except Fault Operator :=
  match symbol with
  | "+" => .ok .add
  | "-" => .ok .subtract
  | "*" => .ok .multiply
  | "/" => .ok .divide
  | "%" => .ok .modulo
  | "**" => .ok .power
  | "<" => .ok .less
  | "<=" => .ok .lessEqual
  | ">" => .ok .greater
  | ">=" => .ok .greaterEqual
  | "==" => .ok .equal
  | "!=" => .ok .notEqual
  | "&&" => .ok .and
  | "||" => .ok .or
  | "!" => .ok .not
  | _ => .error (.unmappedToken symbol)

/-- The operator of a token in front of its operand. A minus here negates. -/
def ofUnarySymbol (symbol : String) : Except Fault Operator :=
  match symbol with
  | "-" => .ok .negate
  | "!" => .ok .not
  | _ => .error (.unmappedToken symbol)

end Operator

/-- A change of a collection in place. -/
inductive CollectionOp where
  | add
  | remove
deriving DecidableEq, Inhabited

/-- Where a used package comes from. -/
inductive UseMode where
  /-- Shipped with the machine. -/
  | builtin
  /-- Compiled along with the program. -/
  | source
  /-- Bound by the host. Nothing is emitted for it. -/
  | foreign
deriving DecidableEq, Inhabited

namespace UseMode

def all : List UseMode := [.builtin, .source, .foreign]

def code : UseMode → UInt8
  | .builtin => 0
  | .source => 1
  | .foreign => 2

def ofByte? (b : UInt8) : Option UseMode := all.find? (·.code == b)

def name : UseMode → String
  | .builtin => "builtin"
  | .source => "source"
  | .foreign => "foreign"

/-- Whether using such a package takes an instruction. -/
def isEmitted : UseMode → Bool
  | .builtin | .source => true
  | .foreign => false

end UseMode

end BytecodeCompiler
