-- Strict JSON: the values, and reading them from text. Strings and numbers are kept as they
-- are spelled, because some readers care about the spelling.

namespace BytecodeCompiler

/-- A JSON value. The contents of strings still have their escapes. -/
inductive Json where
  | null
  | bool (b : Bool)
  | number (spelling : List Char)
  | string (spelling : List Char)
  | array (items : List Json)
  | object (members : List (List Char × Json))
deriving Inhabited

namespace Json

/-! ## Characters -/

def isBlank (c : Char) : Bool := c == ' ' || c == '\n' || c == '\t' || c == '\r'

def isDigit (c : Char) : Bool := '0' ≤ c && c ≤ '9'

/-- The value of a hexadecimal digit of either case. -/
def hexValue? (c : Char) : Option Nat :=
  if isDigit c then some (c.toNat - '0'.toNat)
  else if 'a' ≤ c && c ≤ 'f' then some (c.toNat - 'a'.toNat + 10)
  else if 'A' ≤ c && c ≤ 'F' then some (c.toNat - 'A'.toNat + 10)
  else none

/-- The number of four hexadecimal digits. -/
def hex4? (a b c d : Char) : Option Nat := do
  return (← hexValue? a) * 4096 + (← hexValue? b) * 256 + (← hexValue? c) * 16 + (← hexValue? d)

/-- What a one-letter escape stands for. -/
def simpleEscape? (c : Char) : Option Char :=
  if c = '"' then some '"'
  else if c = '\\' then some '\\'
  else if c = '/' then some '/'
  else if c = 'b' then some '\x08'
  else if c = 'f' then some '\x0c'
  else if c = 'n' then some '\n'
  else if c = 'r' then some '\r'
  else if c = 't' then some '\t'
  else none

/-! ## Tokens -/

def skipBlanks (cs : List Char) : List Char := cs.dropWhile isBlank

/-- The rest of a string after its opening quote, as it is spelled, and what follows the
closing quote. Control characters need an escape. -/
def stringRest? : List Char → Option (List Char × List Char)
  | [] => none
  | '"' :: cs => some ([], cs)
  | '\\' :: 'u' :: a :: b :: c :: d :: cs =>
    if (hex4? a b c d).isSome then
      (stringRest? cs).map fun (s, cs) => ('\\' :: 'u' :: a :: b :: c :: d :: s, cs)
    else none
  | '\\' :: c :: cs =>
    if (simpleEscape? c).isSome then (stringRest? cs).map fun (s, cs) => ('\\' :: c :: s, cs)
    else none
  | c :: cs =>
    if c = '\\' || c.toNat < 0x20 then none
    else (stringRest? cs).map fun (s, cs) => (c :: s, cs)

/-- A row of digits, at least one, and what follows it. -/
def digits? (cs : List Char) : Option (List Char × List Char) :=
  match cs.takeWhile isDigit with
  | [] => none
  | ds => some (ds, cs.dropWhile isDigit)

/-- The whole part of a number: zero, or digits that do not start with zero. -/
def wholePart? : List Char → Option (List Char × List Char)
  | '0' :: cs => some (['0'], cs)
  | cs => digits? cs

/-- The fraction of a number, which may be missing. -/
def fraction? : List Char → Option (List Char × List Char)
  | '.' :: cs => (digits? cs).map fun (ds, cs) => ('.' :: ds, cs)
  | cs => some ([], cs)

/-- The exponent of a number, which may be missing. -/
def exponent? : List Char → Option (List Char × List Char)
  | e :: cs =>
    if e = 'e' || e = 'E' then
      match cs with
      | s :: cs' =>
        if s = '+' || s = '-' then (digits? cs').map fun (ds, cs) => (e :: s :: ds, cs)
        else (digits? cs).map fun (ds, cs) => (e :: ds, cs)
      | [] => none
    else some ([], e :: cs)
  | [] => some ([], [])

/-- The sign of a number, which may be missing. -/
def sign : List Char → List Char × List Char
  | '-' :: cs => (['-'], cs)
  | cs => ([], cs)

/-- A number, as it is spelled. -/
def number? (cs : List Char) : Option (List Char × List Char) := do
  let (minus, cs) := sign cs
  let (whole, cs) ← wholePart? cs
  let (part, cs) ← fraction? cs
  let (power, cs) ← exponent? cs
  return (minus ++ whole ++ part ++ power, cs)

/-! ## Values

Each step of the reading takes at least one character within two steps, so twice the length of
the text is enough steps. -/

mutual

/-- A value, and what follows it. -/
def value? : (steps : Nat) → List Char → Option (Json × List Char)
  | 0, _ => none
  | steps + 1, cs =>
    match skipBlanks cs with
    | 'n' :: 'u' :: 'l' :: 'l' :: cs => some (.null, cs)
    | 't' :: 'r' :: 'u' :: 'e' :: cs => some (.bool true, cs)
    | 'f' :: 'a' :: 'l' :: 's' :: 'e' :: cs => some (.bool false, cs)
    | '"' :: cs => (stringRest? cs).map fun (s, cs) => (.string s, cs)
    | '[' :: cs =>
      match skipBlanks cs with
      | ']' :: cs => some (.array [], cs)
      | cs => (items? steps cs).map fun (is, cs) => (.array is, cs)
    | '\x7b' :: cs =>
      match skipBlanks cs with
      | '\x7d' :: cs => some (.object [], cs)
      | cs => (members? steps cs).map fun (ms, cs) => (.object ms, cs)
    | cs => (number? cs).map fun (s, cs) => (.number s, cs)

/-- The items of an array up to its closing bracket, at least one. -/
def items? : (steps : Nat) → List Char → Option (List Json × List Char)
  | 0, _ => none
  | steps + 1, cs => do
    let (first, cs) ← value? steps cs
    match skipBlanks cs with
    | ']' :: cs => some ([first], cs)
    | ',' :: cs => (items? steps cs).map fun (others, cs) => (first :: others, cs)
    | _ => none

/-- The members of an object up to its closing brace, at least one. -/
def members? : (steps : Nat) → List Char → Option (List (List Char × Json) × List Char)
  | 0, _ => none
  | steps + 1, cs =>
    match skipBlanks cs with
    | '"' :: cs => do
      let (key, cs) ← stringRest? cs
      match skipBlanks cs with
      | ':' :: cs =>
        let (first, cs) ← value? steps cs
        match skipBlanks cs with
        | '\x7d' :: cs => some ([(key, first)], cs)
        | ',' :: cs => (members? steps cs).map fun (others, cs) => ((key, first) :: others, cs)
        | _ => none
      | _ => none
    | _ => none

end

/-- The value that a text holds, with nothing but blanks around it. -/
def parse? (cs : List Char) : Option Json :=
  match value? (2 * cs.length + 2) cs with
  | some (j, rest) => if (skipBlanks rest).isEmpty then some j else none
  | none => none

/-! ## Meanings of spellings -/

def isHighSurrogate (code : Nat) : Bool := 0xd800 ≤ code && code < 0xdc00

def isLowSurrogate (code : Nat) : Bool := 0xdc00 ≤ code && code < 0xe000

/-- The character of two surrogates. -/
def ofSurrogates (high low : Nat) : Char :=
  Char.ofNat (0x10000 + (high - 0xd800) * 0x400 + (low - 0xdc00))

/-- The text of a string. A high surrogate needs a low one behind it, and a low one is nothing
by itself. -/
def unescape? : List Char → Option (List Char)
  | [] => some []
  | '\\' :: 'u' :: a :: b :: c :: d :: cs => do
    let code ← hex4? a b c d
    if isHighSurrogate code then
      match cs with
      | '\\' :: 'u' :: a' :: b' :: c' :: d' :: cs' =>
        let low ← hex4? a' b' c' d'
        if isLowSurrogate low then (unescape? cs').map (ofSurrogates code low :: ·) else none
      | _ => none
    else if isLowSurrogate code then none
    else (unescape? cs).map (Char.ofNat code :: ·)
  | '\\' :: c :: cs => do
    let e ← simpleEscape? c
    (unescape? cs).map (e :: ·)
  | c :: cs => (unescape? cs).map (c :: ·)

/-- The number of a row of digits. -/
def natOfDigits (ds : List Char) : Nat :=
  ds.foldl (fun n d => 10 * n + (d.toNat - '0'.toNat)) 0

/-- A natural number in plain digits: no sign, no point, no exponent and no zero in front. -/
def plainNat? (spelling : List Char) : Option Nat :=
  match spelling with
  | [] => none
  | ['0'] => some 0
  | d :: ds => if d ≠ '0' && (d :: ds).all isDigit then some (natOfDigits (d :: ds)) else none

/-! ## Writing strings -/

/-- A hexadecimal digit of lower case. -/
def hexChar (n : Nat) : Char := Nat.digitChar (n % 16)

/-- One character inside a string. Quotes, backslashes and control characters are escaped. -/
def escapeChar (c : Char) : List Char :=
  if c = '"' then ['\\', '"']
  else if c = '\\' then ['\\', '\\']
  else if c = '\x08' then ['\\', 'b']
  else if c = '\x0c' then ['\\', 'f']
  else if c = '\n' then ['\\', 'n']
  else if c = '\r' then ['\\', 'r']
  else if c = '\t' then ['\\', 't']
  else if c.toNat < 0x20 then ['\\', 'u', '0', '0', hexChar (c.toNat / 16), hexChar c.toNat]
  else [c]

/-- A text as a JSON string. -/
def quote (s : List Char) : List Char := '"' :: (s.flatMap escapeChar ++ ['"'])

end Json

end BytecodeCompiler
