import Prototypal.Options
import Prototypal.SourceUnit
import Prototypal.Value.Basic

/-!
# Prototypal — Event

What an analysis reports while it works (`Event`).  Each event has a level, a title and named
fields.
-/

namespace Prototypal

/-- How much detail an event is about. -/
inductive Level where
  | warn
  | debug
  | trace
deriving DecidableEq, Repr

def Level.name : Level → String
  | warn => "WARN"
  | debug => "DEBUG"
  | trace => "TRACE"

/-- An event is a message, or the opening of a span of work. -/
inductive Title where
  | message (text : String)
  | work (name : String)
deriving DecidableEq, Repr

/-- The content of a field. -/
inductive Detail where
  | number (n : Nat)
  | text (s : String)
deriving DecidableEq, Repr

/-- What is reported. -/
inductive Event where
  | unitAdded (unit : UnitId) (path : String)
  | unitsExhausted
  | versionBumped (unit : UnitId) (version : Nat)
  | unitDetached (unit : UnitId)
  | valueCreated (value : ValueId) (unit : UnitId) (kind : KindTag)
  | valuesExhausted (kind : KindTag)
  | prototypesGrew (value : ValueId) (before after : Nat)
  | cycleSkipped (value : ValueId)
  | limitReached (value : ValueId) (depth attempts : Nat)
  | usagesRebuilt (unit : UnitId) (version : Nat)
  | enumerating (value : ValueId) (accessor : UnitId)
  | optionsLoaded (path : String) (options : Options)
deriving DecidableEq, Repr

namespace Event

def level : Event → Level
  | unitsExhausted | valuesExhausted .. => .warn
  | unitAdded .. | unitDetached .. | limitReached .. | optionsLoaded .. => .debug
  | versionBumped .. | valueCreated .. | prototypesGrew .. | cycleSkipped .. | usagesRebuilt ..
  | enumerating .. => .trace

def title : Event → Title
  | unitAdded .. => .message "entry added"
  | unitsExhausted => .message "entry id space exhausted"
  | versionBumped .. => .message "entry version bumped"
  | unitDetached .. => .message "entry detached"
  | valueCreated .. => .message "analysis value created"
  | valuesExhausted .. => .message "value id space exhausted"
  | prototypesGrew .. => .message "prototype set grew"
  | cycleSkipped .. => .message "prototype cycle skipped"
  | limitReached .. => .message "prototype resolution limit reached"
  | usagesRebuilt .. => .message "rebuilding reference list"
  | enumerating .. => .work "get_all_members"
  | optionsLoaded .. => .message "analyzer options loaded"

def fields : Event → List (String × Detail)
  | unitAdded u path => [("entry", .number u.index), ("path", .text path)]
  | unitsExhausted => []
  | versionBumped u version => [("entry", .number u.index), ("version", .number version)]
  | unitDetached u => [("entry", .number u.index)]
  | valueCreated v u kind =>
    [("value", .number v.index), ("entry", .number u.index), ("kind", .text kind.name)]
  | valuesExhausted kind => [("kind", .text kind.name)]
  | prototypesGrew v before after =>
    [("value", .number v.index), ("before", .number before), ("after", .number after)]
  | cycleSkipped v => [("value", .number v.index)]
  | limitReached v depth attempts =>
    [("value", .number v.index), ("depth", .number depth), ("iterations", .number attempts)]
  | usagesRebuilt u version => [("entry", .number u.index), ("version", .number version)]
  | enumerating v accessor => [("value", .number v.index), ("accessor", .number accessor.index)]
  | optionsLoaded path options => [("path", .text path), ("options", .text options.summary)]

end Event

end Prototypal
