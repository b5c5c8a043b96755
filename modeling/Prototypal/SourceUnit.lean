import Prototypal.Count

/-!
# Prototypal — SourceUnit

The units of source text that declare values (`SourceUnit`).  A unit is analysed again under a
higher version each time its text changes, and is torn down once, for good.  Unit 0 stands for what
the language itself declares.
-/

namespace Prototypal

/-- The identity of a source unit: its position among the units. -/
structure UnitId where
  index : Nat
deriving DecidableEq, Repr, Inhabited

namespace UnitId

/-- The unit of what the language itself declares. -/
def builtin : UnitId := ⟨0⟩

def isBuiltin (u : UnitId) : Bool := u == builtin

end UnitId

/-- A unit of source text: the version it is analysed at, and whether it still stands. -/
structure SourceUnit where
  id : UnitId
  path : String
  version : Nat := 0
  alive : Bool := true
deriving DecidableEq, Repr

namespace SourceUnit

/-- The unit of what the language itself declares. -/
def builtin : SourceUnit := { id := .builtin, path := "<builtins>" }

/-- The unit at its next version. -/
def bump (u : SourceUnit) : SourceUnit := { u with version := Count.next u.version }

/-- The unit torn down. -/
def detach (u : SourceUnit) : SourceUnit := { u with alive := false }

end SourceUnit

end Prototypal
