import Prototypal.Event
import Prototypal.Liveness

/-!
# Prototypal — Analysis — Basic

The state of an analysis (`Analysis`): the source units, the values created so far with a tally of
their kinds, and the options.  Values and units are never removed; their identities are their
positions, which go up to `Count.top`.  When no identity is left, the undefined value stands for new
values and the built-in unit for new units.  An operation answers with a value, the state after it,
and the events it reports (`Reply`).

A value is tethered to the unit that declares it, if that unit exists when the value is created and
is not the built-in one; it is dead once that unit is torn down.
-/

namespace Prototypal

/-- The state of an analysis. -/
structure Analysis where
  options : Options
  units : Array SourceUnit
  values : Array Value
  tally : Roster KindTag Nat
deriving DecidableEq

/-- What an operation answers, the state it leaves, and what it reports. -/
structure Reply (α : Type) where
  answer : α
  state : Analysis
  log : List Event := []

namespace Analysis

/-! ### Looking up -/

def unit? (a : Analysis) (u : UnitId) : Option SourceUnit := a.units[u.index]?

def value? (a : Analysis) (v : ValueId) : Option Value := a.values[v.index]?

def kind? (a : Analysis) (v : ValueId) : Option Kind := (a.value? v).map Value.kind

/-- The slot of an own member of a value. -/
def slot? (a : Analysis) (v : ValueId) (name : String) : Option Slot :=
  (a.value? v).bind (·.slot? name)

/-- What an own member of a value may hold, nothing if there is none. -/
def ownTypes (a : Analysis) (v : ValueId) (name : String) : ValueSet :=
  ((a.slot? v name).map Slot.types).getD ∅

/-- The prototypes of a value in ascending order, none unless it is an inheritor. -/
def prototypes (a : Analysis) (v : ValueId) : List ValueId :=
  (((a.kind? v).bind Kind.prototypes?).map ValueSet.toList).getD []

/-- The number of inheritors among the values. -/
def inheritorCount (a : Analysis) : Nat := a.values.toList.countP (·.kind.isInheritor)

/-- How many values of each kind were created, the kinds in the order of their names. -/
def stats (a : Analysis) : List (KindTag × Nat) :=
  a.tally.entries.mergeSort fun x y => x.1.name ≤ y.1.name

/-- The value that stands for what was never set. -/
def undefined (_ : Analysis) : ValueId := ⟨0⟩

/-- The state with one value changed. -/
def modifyValue (a : Analysis) (v : ValueId) (f : Value → Value) : Analysis :=
  { a with values := a.values.modify v.index f }

/-! ### Values -/

/-- The unit that a new value is tethered to. -/
def tether (a : Analysis) (u : UnitId) : Option UnitId :=
  if u.isBuiltin then none else (a.unit? u).map SourceUnit.id

/-- Creates a value of the given shape, declared in unit `u`. -/
def create (a : Analysis) (u : UnitId) (kind : Kind) : Reply ValueId :=
  if a.values.size ≤ Count.top then
    { answer := ⟨a.values.size⟩
      state :=
        { a with
          values := a.values.push { unit := u, kind, tether := a.tether u }
          tally := a.tally.set kind.tag ((a.tally.get? kind.tag).getD 0 + 1) }
      log := [.valueCreated ⟨a.values.size⟩ u kind.tag] }
  else { answer := a.undefined, state := a, log := [.valuesExhausted kind.tag] }

/-- Creates the argument list of a function, declared where the function is. -/
def createArguments (a : Analysis) (function : ValueId) : Reply ValueId :=
  a.create (((a.value? function).map Value.unit).getD .builtin) (.arguments function)

/-- The analysis before any fact: the built-in unit, and the undefined value declared in it. -/
def fresh (options : Options) : Analysis :=
  (create { options, units := #[.builtin], values := #[], tally := ∅ } .builtin .undefined).state

/-! ### Units -/

/-- Adds a source unit. -/
def addUnit (a : Analysis) (path : String) : Reply UnitId :=
  if a.units.size ≤ Count.top then
    { answer := ⟨a.units.size⟩
      state := { a with units := a.units.push { id := ⟨a.units.size⟩, path } }
      log := [.unitAdded ⟨a.units.size⟩ path] }
  else { answer := .builtin, state := a, log := [.unitsExhausted] }

/-- Moves a unit to its next version, which is the answer. -/
def bumpUnit (a : Analysis) (u : UnitId) : Reply (Option Nat) :=
  match a.unit? u with
  | none => { answer := none, state := a }
  | some unit =>
    { answer := some unit.bump.version
      state := { a with units := a.units.setIfInBounds u.index unit.bump }
      log := [.versionBumped u unit.bump.version] }

/-- Tears a unit down, the built-in one too; answers whether there is such a unit. -/
def tearDown (a : Analysis) (u : UnitId) : Reply Bool where
  answer := (a.unit? u).isSome
  state := { a with units := a.units.modify u.index SourceUnit.detach }

/-- Tears a unit down, unless it is the built-in one. -/
def detachUnit (a : Analysis) (u : UnitId) : Reply Unit :=
  if u.isBuiltin || (a.unit? u).isNone then { answer := (), state := a }
  else { answer := (), state := (a.tearDown u).state, log := [.unitDetached u] }

/-! ### Liveness -/

/-- Whether a unit still stands. -/
def isStanding (a : Analysis) (u : UnitId) : Bool := (a.unit? u).any SourceUnit.alive

/-- Whether a value exists and is alive. -/
def isAlive (a : Analysis) (v : ValueId) : Bool :=
  (a.value? v).any fun value => Prototypal.isAlive a.isStanding value.tether

/-- The living members of a set. -/
def living (a : Analysis) (s : ValueSet) : ValueSet := s.filter a.isAlive

/-- A set as it is shown in answers: without dead values, if these are hidden. -/
def shown (a : Analysis) (s : ValueSet) : ValueSet :=
  if a.options.hidesDead then a.living s else s

end Analysis

/-- The reply with its set as it is shown in answers. -/
def Reply.shown (r : Reply ValueSet) : Reply ValueSet := { r with answer := r.state.shown r.answer }

end Prototypal
