/-!
# Prototypal — Liveness

Teardown of what declares values.  A holder may be tethered to a teardown flag, which many holders
can share; it is alive while the flag is up, and always if it has no tether (`isAlive`).  `Flags` is
a table of such flags.
-/

namespace Prototypal

/-- Whether a holder with the given tether is alive, `up` telling which flags are up. -/
def isAlive {τ : Type} (up : τ → Bool) : Option τ → Bool
  | none => true
  | some flag => up flag

/-- A teardown flag, by its position in the table; all copies stand for the same flag. -/
structure Flag where
  index : Nat
deriving DecidableEq, Repr

/-- Teardown flags, each up until it is lowered. -/
structure Flags where
  up : Array Bool := #[]
deriving DecidableEq, Repr

namespace Flags

/-- A new flag, which is up. -/
def raise (fs : Flags) : Flag × Flags := (⟨fs.up.size⟩, ⟨fs.up.push true⟩)

/-- Lowers a flag for good. -/
def lower (fs : Flags) (f : Flag) : Flags := ⟨fs.up.setIfInBounds f.index false⟩

def isUp (fs : Flags) (f : Flag) : Bool := fs.up.getD f.index false

end Flags

end Prototypal
