import Prototypal.Usage
import Prototypal.Value.Double
import Prototypal.Value.Set

/-!
# Prototypal — Value — Basic

Abstract values of a JavaScript program: the shapes that an expression may evaluate to (`Kind`),
each with the unit that declares it (`Value`).  Objects, functions and inheritors have members of
their own (`Members`), listed in definition order; a member is a slot of possible values with the
places it is read at (`Slot`).  An inheritor also draws members from the values in its prototype
set.
-/

namespace Prototypal

/-- A member of an object-like value: what it may hold, and where it is read. -/
structure Slot where
  types : ValueSet := ∅
  usages : UsageBook := {}
deriving DecidableEq

/-- The slot that may also hold `values`. -/
def Slot.widen (s : Slot) (values : ValueSet) : Slot := { s with types := s.types ∪ values }

/-- Own members in definition order. -/
abbrev Members := Roster String Slot

/-- The shapes of values. -/
inductive Kind where
  | undefined
  | null
  | boolean (b : Bool)
  | number (n : Double)
  | text (s : String)
  | object (members : Members)
  /-- A function, with the argument sets of the call it is analysed for. -/
  | function (name : String) (members : Members) (args : Option (List ValueSet))
  /-- The argument list of a function, read from the function when it is indexed. -/
  | arguments (function : ValueId)
  /-- An object that draws members from every value in its prototype set. -/
  | inheritor (members : Members) (prototypes : ValueSet)
deriving DecidableEq

/-- The shapes without their content. -/
inductive KindTag where
  | undefined | null | boolean | number | text | object | function | arguments | inheritor
deriving DecidableEq, Repr

/-- The name under which values of a shape are counted and reported. -/
def KindTag.name : KindTag → String
  | undefined => "undefined"
  | null => "null"
  | boolean => "boolean"
  | number => "number"
  | text => "string"
  | object => "object"
  | function => "function"
  | arguments => "arguments"
  | inheritor => "inherits-prototype"

/-- The types that a program can tell apart. -/
inductive TypeClass where
  | unknown | undefined | null | boolean | number | text | object | function
deriving DecidableEq, Repr

namespace TypeClass

/-- The name of the type itself. -/
def name : TypeClass → String
  | unknown => "Unknown"
  | undefined => "Undefined"
  | null => "Null"
  | boolean => "Boolean"
  | number => "Number"
  | text => "String"
  | object => "Object"
  | function => "Function"

/-- The name of a member that holds the type. -/
def memberName : TypeClass → String
  | unknown => "unknown"
  | undefined => "undefined"
  | null => "null"
  | boolean => "boolean"
  | number => "number"
  | text => "string"
  | object => "object"
  | function => "function"

end TypeClass

namespace Kind

def tag : Kind → KindTag
  | undefined => .undefined
  | null => .null
  | boolean _ => .boolean
  | number _ => .number
  | text _ => .text
  | object _ => .object
  | function .. => .function
  | arguments _ => .arguments
  | inheritor .. => .inheritor

/-- The type of a value of this shape; an argument list has none that is known. -/
def typeClass : Kind → TypeClass
  | undefined => .undefined
  | null => .null
  | boolean _ => .boolean
  | number _ => .number
  | text _ => .text
  | object _ => .object
  | function .. => .function
  | arguments _ => .unknown
  | inheritor .. => .object

/-- A short text for the value, as shown beside its name. -/
def description : Kind → String
  | function name _ _ => if name.isEmpty then "function" else "function " ++ name
  | inheritor .. => "object"
  | k => k.tag.name

def number? : Kind → Option Double
  | number n => some n
  | _ => none

def text? : Kind → Option String
  | text s => some s
  | _ => none

/-- The own members of an object-like value. -/
def members? : Kind → Option Members
  | object ms | function _ ms _ | inheritor ms _ => some ms
  | _ => none

/-- An object-like value with other own members; any other value as it is. -/
def withMembers (k : Kind) (ms : Members) : Kind :=
  match k with
  | object _ => object ms
  | function name _ args => function name ms args
  | inheritor _ prototypes => inheritor ms prototypes
  | k => k

/-- The prototype set of an inheritor. -/
def prototypes? : Kind → Option ValueSet
  | inheritor _ prototypes => some prototypes
  | _ => none

def isInheritor (k : Kind) : Bool := k.prototypes?.isSome

/-- The argument sets that a function is bound to. -/
def args? : Kind → Option (List ValueSet)
  | function _ _ args => args
  | _ => none

end Kind

/-- An abstract value.  It lives as long as the unit it is tethered to, if any. -/
structure Value where
  unit : UnitId
  kind : Kind
  tether : Option UnitId
deriving DecidableEq

namespace Value

/-- The slot of an own member. -/
def slot? (v : Value) (name : String) : Option Slot := v.kind.members?.bind (·.get? name)

/-- The value with the slot of a member set, if it is object-like. -/
def setSlot (v : Value) (name : String) (slot : Slot) : Value :=
  match v.kind.members? with
  | some ms => { v with kind := v.kind.withMembers (ms.set name slot) }
  | none => v

end Value

end Prototypal
