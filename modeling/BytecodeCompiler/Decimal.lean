-- Decimal text of binary floating-point numbers: the fewest digits that read back as the
-- same number, of those the nearest, and a half goes up. Numbers are given by their bits,
-- so the sign of zero and the bits of a NaN are never lost on the way.

namespace BytecodeCompiler.Decimal

/-! ## Binary numbers -/

/-- The layout of a binary format: how many bits its fraction and its exponent have. -/
structure Layout where
  fractionBits : Nat
  exponentBits : Nat
deriving DecidableEq

/-- Four bytes: 23 bits of fraction and 8 of exponent. -/
def single : Layout := ⟨23, 8⟩

/-- Eight bytes: 52 bits of fraction and 11 of exponent. -/
def double : Layout := ⟨52, 11⟩

namespace Layout

def fraction (f : Layout) (bits : Nat) : Nat := bits % Nat.pow 2 f.fractionBits

def exponent (f : Layout) (bits : Nat) : Nat :=
  bits / Nat.pow 2 f.fractionBits % Nat.pow 2 f.exponentBits

def isNegative (f : Layout) (bits : Nat) : Bool :=
  bits / Nat.pow 2 (f.fractionBits + f.exponentBits) % 2 == 1

/-- Infinities and NaNs have all exponent bits set. -/
def isSpecial (f : Layout) (bits : Nat) : Bool := f.exponent bits == Nat.pow 2 f.exponentBits - 1

def isNaN (f : Layout) (bits : Nat) : Bool := f.isSpecial bits && f.fraction bits != 0

def isZero (f : Layout) (bits : Nat) : Bool := f.exponent bits == 0 && f.fraction bits == 0

/-- Whether two numbers are equal as numbers: a NaN equals nothing and both zeros are equal. -/
def numEq (f : Layout) (a b : Nat) : Bool :=
  !f.isNaN a && !f.isNaN b && (a == b || (f.isZero a && f.isZero b))

/-- The significand of a finite number, with its leading bit. -/
def significand (f : Layout) (bits : Nat) : Nat :=
  if f.exponent bits = 0 then f.fraction bits else Nat.pow 2 f.fractionBits + f.fraction bits

/-- The power of two that scales the significand of a finite number. -/
def scale (f : Layout) (bits : Nat) : Int :=
  (max (f.exponent bits) 1 : Nat) - (Nat.pow 2 (f.exponentBits - 1) - 1 : Nat) - f.fractionBits

end Layout

/-! ## The rounding interval -/

/-- A positive rational with the interval of rationals that round to it. All three are counted
in units of one over `unit`. -/
structure Rounding where
  value : Nat
  low : Nat
  high : Nat
  unit : Nat
  /-- Whether the ends of the interval round to the value too. -/
  closed : Bool
deriving DecidableEq

/-- The rounding interval of a finite number that is not zero. The neighbour below the least
significand of an exponent is only half as far away, unless it is subnormal. -/
def Layout.rounding (f : Layout) (bits : Nat) : Rounding :=
  let m := f.significand bits
  let halfBelow : Nat := if f.fraction bits = 0 ∧ 1 < f.exponent bits then 1 else 2
  let e := f.scale bits - 2
  let up := Nat.pow 2 e.toNat
  { value := 4 * m * up
    low := (4 * m - halfBelow) * up
    high := (4 * m + 2) * up
    unit := Nat.pow 2 (-e).toNat
    closed := m % 2 == 0 }

/-- Whether `digits · 10 ^ exponent` rounds to the value. -/
def Rounding.holds (r : Rounding) (digits : Nat) (exponent : Int) : Bool :=
  let n := digits * Nat.pow 10 exponent.toNat * r.unit
  let d := Nat.pow 10 (-exponent).toNat
  if r.closed then r.low * d ≤ n && n ≤ r.high * d else r.low * d < n && n < r.high * d

/-! ## Shortest digits -/

/-- How many decimal digits a number has. Zero has one. -/
def digitCount (n : Nat) : Nat := (Nat.toDigits 10 n).length

/-- The exponent `k` with `10 ^ (k - 1) ≤ value < 10 ^ k`, when the value is a whole number of
some power of two. -/
def Rounding.magnitude (r : Rounding) : Int :=
  if r.unit ≤ r.value then digitCount (r.value / r.unit)
  else 1 - (digitCount (r.unit / r.value) : Int)

/-- The nearest multiple of `10 ^ exponent` in the interval, if it has one. Only the two
multiples around the value need a test, and of two that are equally near the upper one counts. -/
def Rounding.onGrid? (r : Rounding) (exponent : Int) : Option Nat :=
  let n := r.value * Nat.pow 10 (-exponent).toNat
  let d := r.unit * Nat.pow 10 exponent.toNat
  let below := n / d
  let rest := n % d
  let belowHolds := r.holds below exponent && 0 < below
  let aboveHolds := r.holds (below + 1) exponent
  if belowHolds && (!aboveHolds || 2 * rest < d) then some below
  else if aboveHolds then some (below + 1)
  else none

/-- A decimal number: `digits · 10 ^ exponent`. -/
structure Number where
  digits : Nat
  exponent : Int
deriving DecidableEq

/-- Drop up to `n` zeros at the end. -/
def Number.trim : Nat → Number → Number
  | 0, x => x
  | n + 1, x => if x.digits % 10 = 0 then trim n ⟨x.digits / 10, x.exponent + 1⟩ else x

/-- The most digits any of the formats here needs. -/
def maxDigits : Nat := 17

/-- The fewest digits that round to the value, and of those the nearest. -/
def Rounding.shortest (r : Rounding) : Number :=
  let k := r.magnitude
  let found := (List.range maxDigits).findSome? fun i =>
    let exponent := k - (i + 1 : Nat)
    (r.onGrid? exponent).map fun digits => Number.mk digits exponent
  match found with
  | some x => x.trim maxDigits
  | none => ⟨0, 0⟩

/-! ## Text -/

/-- A decimal number in positional notation, never with an exponent. -/
def Number.text (x : Number) : String :=
  let ds := Nat.toDigits 10 x.digits
  if 0 ≤ x.exponent then String.ofList (ds ++ List.replicate x.exponent.toNat '0')
  else
    let places := (-x.exponent).toNat
    if places < ds.length then
      String.ofList (ds.take (ds.length - places) ++ '.' :: ds.drop (ds.length - places))
    else String.ofList ('0' :: '.' :: (List.replicate (places - ds.length) '0' ++ ds))

/-- The text of a number given by its bits. A NaN has no sign. -/
def Layout.text (f : Layout) (bits : Nat) : String :=
  if f.isNaN bits then "NaN"
  else
    let sign := if f.isNegative bits then "-" else ""
    if f.isSpecial bits then sign ++ "inf"
    else if f.isZero bits then sign ++ "0"
    else sign ++ (f.rounding bits).shortest.text

end BytecodeCompiler.Decimal
