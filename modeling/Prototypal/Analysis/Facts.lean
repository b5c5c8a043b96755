import Prototypal.Analysis.Basic

/-!
# Prototypal — Analysis — Facts

What an analysis learns about values: the prototypes that an inheritor draws from, the values that a
member may hold, and the arguments that a function is called with.  The first two only ever grow,
and each operation answers whether the fact was new, which a set shows by its size.
-/

namespace Prototypal.Analysis

/-- Adds prototypes to an inheritor; answers whether its prototype set grew. -/
def addPrototypes (a : Analysis) (v : ValueId) (prototypes : ValueSet) : Reply Bool :=
  match a.kind? v with
  | some (.inheritor members known) =>
    let grown := known ∪ prototypes
    if grown.size = known.size then { answer := false, state := a }
    else
      { answer := true
        state := a.modifyValue v ({ · with kind := .inheritor members grown })
        log := [.prototypesGrew v known.size grown.size] }
  | _ => { answer := false, state := a }

/-- Adds values to an own member of an object-like value, which gets the member if it had none;
answers whether the member's set grew. -/
def assign (a : Analysis) (v : ValueId) (name : String) (values : ValueSet) : Reply Bool :=
  match (a.kind? v).bind Kind.members? with
  | none => { answer := false, state := a }
  | some members =>
    let slot := (members.get? name).getD {}
    let widened := slot.widen values
    { answer := widened.types.size != slot.types.size
      state := a.modifyValue v (·.setSlot name widened) }

/-- Binds a function to the argument sets of a call, in place of earlier ones; answers whether it is
a function. -/
def bindArguments (a : Analysis) (v : ValueId) (args : List ValueSet) : Reply Bool :=
  match a.kind? v with
  | some (.function name members _) =>
    { answer := true
      state := a.modifyValue v ({ · with kind := .function name members (some args) }) }
  | _ => { answer := false, state := a }

end Prototypal.Analysis
