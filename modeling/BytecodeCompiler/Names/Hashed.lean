import BytecodeCompiler.Names
import Std.Data.HashSet

-- Four-letter names made from a seeded hash of a counter. The same seed always gives the
-- same names, and a name that was given before is passed over.

namespace BytecodeCompiler

/-! ## The hash

The 64-bit xxHash of eight bytes, which are the little-endian bytes of one number. -/

namespace Digest

def prime1 : UInt64 := 0x9e3779b185ebca87
def prime2 : UInt64 := 0xc2b2ae3d27d4eb4f
def prime3 : UInt64 := 0x165667b19e3779f9
def prime4 : UInt64 := 0x85ebca77c2b2ae63
def prime5 : UInt64 := 0x27d4eb2f165667c5

/-- The bits of a word moved up by `n` places, and those that leave at the top come back at
the bottom. -/
def rotate (x n : UInt64) : UInt64 := (x <<< n) ||| (x >>> (64 - n))

/-- One number mixed for the sum. -/
def mixLane (lane : UInt64) : UInt64 := rotate (lane * prime2) 31 * prime1

/-- The last mixing, after which every bit of the sum matters to every bit of the hash. -/
def avalanche (h : UInt64) : UInt64 :=
  let h := (h ^^^ (h >>> 33)) * prime2
  let h := (h ^^^ (h >>> 29)) * prime3
  h ^^^ (h >>> 32)

/-- The hash of one number. -/
def ofLane (seed lane : UInt64) : UInt64 :=
  avalanche (rotate ((seed + prime5 + 8) ^^^ mixLane lane) 27 * prime1 + prime4)

end Digest

/-! ## The names -/

/-- A supply of names from a hash of a counter. -/
structure HashedNames where
  /-- The seeded hash of the counter. -/
  digest : UInt64 → UInt64
  counter : UInt64
  /-- The names given so far. -/
  issued : Std.HashSet String

namespace HashedNames

/-- The supply of a hash that takes a seed and a counter. -/
def ofHash (hash : UInt64 → UInt64 → UInt64) (seed : UInt64) : HashedNames := ⟨hash seed, 0, ∅⟩

def ofSeed (seed : UInt64) : HashedNames := ofHash Digest.ofLane seed

/-- The letters of the names. -/
def alphabet : List Char := "abcdefghijklmnopqrstuvwxyzABCDEFGHIJKLMNOPQRSTUVWXYZ".toList

/-- How many letters a name has. -/
def nameLength : Nat := 4

/-- The letter of a number. -/
def letter (n : Nat) : Char := alphabet.getD (n % alphabet.length) 'a'

/-- A letter for each sixteen bits of a hash, the low ones first. -/
def spell (hash : UInt64) : String :=
  String.ofList ((List.range nameLength).map fun i => letter (hash.toNat / Nat.pow 65536 i % 65536))

/-- The first name within so many steps of the counter that was not given before. -/
def search : (steps : Nat) → HashedNames → Option (Ident × HashedNames)
  | 0, _ => none
  | steps + 1, ⟨digest, counter, issued⟩ =>
    let name := spell (digest counter)
    if issued.contains name then search steps ⟨digest, counter + 1, issued⟩
    else some (.name name, ⟨digest, counter + 1, issued.insert name⟩)

/-- After this many steps the counter is back where it was, and no new name can come. -/
def counterSpan : Nat := 0x10000000000000000

instance : NameSupply HashedNames where
  fresh := search counterSpan

end HashedNames

end BytecodeCompiler
