import Prototypal.Roster
import Prototypal.Source.Span
import Prototypal.SourceUnit

/-!
# Prototypal — Usage

Where a member was read.  The places that one source unit reads a member at are valid for one
version of the unit (`UsageList`); a book keeps a list for each unit (`UsageBook`).  A list of
another version than the unit's is stale, and gives way to a new one when the unit is next looked
up, in the same place of the book.
-/

namespace Prototypal

/-- A place in a source unit at which a member is read. -/
structure Site where
  unit : UnitId
  span : PackedSpan
deriving DecidableEq, Repr

/-- The places recorded for one unit at one version, each once, in order of first recording. -/
structure UsageList where
  unit : UnitId
  version : Nat
  locations : List PackedSpan := []
deriving DecidableEq, Repr

namespace UsageList

/-- The list without places for a unit as it is now. -/
def ofUnit (u : SourceUnit) : UsageList := { unit := u.id, version := u.version }

def contains (l : UsageList) (p : PackedSpan) : Bool := l.locations.contains p

/-- Whether the list was made for the version that the unit has now. -/
def isCurrent (l : UsageList) (u : SourceUnit) : Bool := l.version == u.version

/-- Records a place; the flag tells whether it is new. -/
def add (l : UsageList) (p : PackedSpan) : Bool × UsageList :=
  if l.contains p then (false, l) else (true, { l with locations := l.locations ++ [p] })

/-- The recorded places with their unit. -/
def sites (l : UsageList) : List Site := l.locations.map (⟨l.unit, ·⟩)

end UsageList

/-- The usage lists of a member, by unit, in the order in which the units were first looked up. -/
structure UsageBook where
  lists : Roster UnitId UsageList := ∅
deriving DecidableEq

namespace UsageBook

instance : Inhabited UsageBook := ⟨{}⟩

/-- The list kept for a unit, whatever its version. -/
def list? (b : UsageBook) (u : UnitId) : Option UsageList := b.lists.get? u

/-- Whether a unit has no list of its present version. -/
def isStale (b : UsageBook) (u : SourceUnit) : Bool :=
  match b.list? u.id with
  | some l => !l.isCurrent u
  | none => true

/-- The list of a unit at its present version, empty if there is none yet. -/
def current (b : UsageBook) (u : SourceUnit) : UsageList :=
  match b.list? u.id with
  | some l => if l.isCurrent u then l else .ofUnit u
  | none => .ofUnit u

/-- The book in which the unit's list is of its present version. -/
def refresh (b : UsageBook) (u : SourceUnit) : UsageBook := ⟨b.lists.set u.id (b.current u)⟩

/-- Records a place in the unit's list of its present version; the flag tells whether it is new. -/
def record (b : UsageBook) (u : SourceUnit) (p : PackedSpan) : Bool × UsageBook :=
  let (fresh, l) := (b.current u).add p
  (fresh, ⟨b.lists.set u.id l⟩)

/-- All recorded places, under the unit they are kept for. -/
def locations (b : UsageBook) : List (UnitId × Span) :=
  b.lists.entries.flatMap fun (u, l) => l.locations.map fun p => (u, p.unpack)

/-- All recorded places with the unit of their list. -/
def sites (b : UsageBook) : List Site := b.lists.entries.flatMap fun (_, l) => l.sites

end UsageBook

end Prototypal
