import BytecodeCompiler.Ident

-- Supplies of fresh names. Lowering takes its labels from a supply that it is given, so the
-- labels can be plain and countable, or spread out by a hash.

namespace BytecodeCompiler

/-- Something that hands out names one after the other. A supply that is used up has none. -/
class NameSupply (σ : Type) where
  fresh : σ → Option (Ident × σ)

/-! ## Names in sequence -/

/-- The names L0, L1, L2 and so on. -/
structure SequentialNames where
  next : Nat
deriving DecidableEq, Inhabited

namespace SequentialNames

def start : SequentialNames := ⟨0⟩

instance : NameSupply SequentialNames where
  fresh s := some (.name ("L" ++ toString s.next), ⟨s.next + 1⟩)

end SequentialNames

end BytecodeCompiler
