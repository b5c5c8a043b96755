import Prototypal.Analysis.Facts
import Prototypal.Analysis.Query

/-!
# Prototypal — Analysis — Command

The operations of an analysis as data (`Command`), what they answer (`Answer`), and runs of them
(`Analysis.run`).  The states of an analysis are those that runs lead to from a fresh one.
-/

namespace Prototypal

/-- An operation of an analysis. -/
inductive Command where
  | addUnit (path : String)
  | bumpUnit (unit : UnitId)
  | detachUnit (unit : UnitId)
  | tearDown (unit : UnitId)
  | createNull (unit : UnitId)
  | createBoolean (unit : UnitId) (b : Bool)
  | createNumber (unit : UnitId) (n : Double)
  | createText (unit : UnitId) (s : String)
  | createObject (unit : UnitId)
  | createFunction (unit : UnitId) (name : String)
  | createArguments (function : ValueId)
  | createInheritor (unit : UnitId) (prototypes : ValueSet)
  | addPrototypes (value : ValueId) (prototypes : ValueSet)
  | assign (value : ValueId) (name : String) (values : ValueSet)
  | bindArguments (function : ValueId) (args : List ValueSet)
  | lookup (value : ValueId) (name : String) (site : Option Site)
  | property (value : ValueId) (name : String)
  | propertyValue (descriptor : Descriptor) (site : Option Site)
  | index (value : ValueId) (index : ValueSet) (site : Option Site)
  | members (value : ValueId) (accessor : UnitId)
deriving DecidableEq

/-- What operations answer. -/
inductive Answer where
  | done
  | flag (b : Bool)
  | unit (u : UnitId)
  | version (n : Option Nat)
  | value (v : ValueId)
  | values (s : ValueSet)
  | descriptor (d : Option Descriptor)
  | members (m : MemberMap)
deriving DecidableEq

/-- The reply with its answer mapped. -/
def Reply.map {α β : Type} (r : Reply α) (f : α → β) : Reply β := { r with answer := f r.answer }

namespace Analysis

/-- Carries out an operation. -/
def step (a : Analysis) : Command → Reply Answer
  | .addUnit path => (a.addUnit path).map .unit
  | .bumpUnit u => (a.bumpUnit u).map .version
  | .detachUnit u => (a.detachUnit u).map fun _ => .done
  | .tearDown u => (a.tearDown u).map .flag
  | .createNull u => (a.create u .null).map .value
  | .createBoolean u b => (a.create u (.boolean b)).map .value
  | .createNumber u n => (a.create u (.number n)).map .value
  | .createText u s => (a.create u (.text s)).map .value
  | .createObject u => (a.create u (.object ∅)).map .value
  | .createFunction u name => (a.create u (.function name ∅ none)).map .value
  | .createArguments f => (a.createArguments f).map .value
  | .createInheritor u prototypes => (a.create u (.inheritor ∅ prototypes)).map .value
  | .addPrototypes v prototypes => (a.addPrototypes v prototypes).map .flag
  | .assign v name values => (a.assign v name values).map .flag
  | .bindArguments v args => (a.bindArguments v args).map .flag
  | .lookup v name site => (a.lookup v name site).map .values
  | .property v name => (a.property v name).map .descriptor
  | .propertyValue d site => (a.propertyValue d site).map .values
  | .index v is site => (a.index v is site).map .values
  | .members v accessor => (a.members v accessor).map .members

/-- Carries out operations one after the other. -/
def run (a : Analysis) : List Command → Reply (List Answer)
  | [] => { answer := [], state := a }
  | c :: cs =>
    let first := a.step c
    let rest := first.state.run cs
    { answer := first.answer :: rest.answer, state := rest.state, log := first.log ++ rest.log }

end Analysis

end Prototypal
