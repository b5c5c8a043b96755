import Prototypal.Analysis.Basic
import Prototypal.Resolution.Descriptor

/-!
# Prototypal — Analysis — Query

Questions to an analysis: what a member may hold (`lookup`), how it is read (`property`,
`propertyValue`), what indexing gives (`index`), and which members there are (`members`).

A reading descends through the values first, and its steps are then carried out in order: a site is
recorded in every slot that the descent visited, and denied attempts are reported.  Recording
changes no member set and no prototype set, so it does not bear on the result, and to record along
the way would give the same (`Analysis.readings_interleave`).  Dead values are taken out of answers
only, never out of what is explored.
-/

namespace Prototypal

/-- Members with what they may hold, in order of first appearance. -/
abbrev MemberMap := Roster String ValueSet

/-- Adds the members of `n` to those of `m`, uniting the sets of common ones. -/
def MemberMap.merge (m n : MemberMap) : MemberMap :=
  n.entries.foldl (fun m (name, types) => m.set name ((m.get? name).getD ∅ ∪ types)) m

namespace Analysis

/-! ### Recording -/

/-- Records a site in the slot of an own member, if there are such a slot and such a unit. -/
def recordUsage (a : Analysis) (v : ValueId) (name : String) (site : Site) :
    Analysis × List Event :=
  match a.slot? v name, a.unit? site.unit with
  | some slot, some unit =>
    let recorded := { slot with usages := (slot.usages.record unit site.span).2 }
    (a.modifyValue v (·.setSlot name recorded),
      if slot.usages.isStale unit then [.usagesRebuilt unit.id unit.version] else [])
  | _, _ => (a, [])

/-- The site to be recorded, if sites are. -/
def recordedSite (a : Analysis) (site : Option Site) : Option Site :=
  site.filter fun _ => a.options.recordsUsages

/-- Carries out one step of reading member `name` from a site. -/
def perform (a : Analysis) (name : String) (site : Option Site) : Step → Analysis × List Event
  | .visit v =>
    match site with
    | some site => a.recordUsage v name site
    | none => (a, [])
  | step => (a, step.event?.toList)

/-- Carries out the steps of reading member `name` from a site. -/
def performAll (a : Analysis) (name : String) (site : Option Site) :
    List Step → Analysis × List Event
  | [] => (a, [])
  | step :: steps =>
    let (a, log) := a.perform name site step
    let (a, log') := a.performAll name site steps
    (a, log ++ log')

/-! ### Members by name -/

/-- What any of the named members of `v` may hold, all of them explored under one guard. -/
def readNames (a : Analysis) (v : ValueId) (site : Option Site) (g : Guard ValueId) :
    List String → Reply ValueSet
  | [] => { answer := ∅, state := a }
  | name :: names =>
    let found := a.explore (a.ownTypes · name) (· ∪ ·) g v
    let (a, log) := a.performAll name site found.trace
    let rest := a.readNames v site found.guard names
    { rest with answer := found.result ∪ rest.answer, log := log ++ rest.log }

/-- What member `name` of `v` may hold. -/
def lookup (a : Analysis) (v : ValueId) (name : String) (site : Option Site) : Reply ValueSet :=
  (a.readNames v (a.recordedSite site) a.guard [name]).shown

/-! ### Members by descriptor -/

/-- How member `name` of `v` is read. -/
def property (a : Analysis) (v : ValueId) (name : String) : Reply (Option Descriptor) :=
  let found := a.describe name a.guard v
  { answer := found.result, state := a, log := found.trace.filterMap Step.event? }

/-- What a descriptor gives now. -/
def propertyValue (a : Analysis) (d : Descriptor) (site : Option Site) : Reply ValueSet :=
  let found := a.evaluate a.guard d
  let (state, log) := a.performAll d.name (a.recordedSite site) found.trace
  Reply.shown { answer := found.result, state, log }

/-! ### Indexing -/

/-- The member name that a constant stands for as an index: a text itself, and the digits of a
natural number of 32 bits. -/
def indexName? (a : Analysis) (v : ValueId) : Option String :=
  match a.kind? v with
  | some (.text s) => some s
  | some (.number n) => (n.nat?.filter (· ≤ Count.top)).map toString
  | _ => none

/-- The argument position that a constant stands for as an index. -/
def position? (a : Analysis) (v : ValueId) : Option Nat :=
  ((a.kind? v).bind Kind.number?).bind Double.nat?

/-- What the argument list of a function may hold at any of the positions. -/
def argumentsAt (a : Analysis) (function : ValueId) (index : ValueSet) : ValueSet :=
  let args := ((a.kind? function).bind Kind.args?).getD []
  .unionAll (index.toList.filterMap fun i => (a.position? i).bind (args[·]?))

/-- What `v` may hold at any of the indices. -/
def index (a : Analysis) (v : ValueId) (index : ValueSet) (site : Option Site) : Reply ValueSet :=
  match a.kind? v with
  | some (.arguments function) => Reply.shown { answer := a.argumentsAt function index, state := a }
  | some (.object _) | some (.function ..) | some (.inheritor ..) =>
    (a.readNames v (a.recordedSite site) a.guard (index.toList.filterMap a.indexName?)).shown
  | _ => { answer := ∅, state := a }

/-! ### Enumeration -/

/-- The own members of a value. -/
def ownMembers (a : Analysis) (v : ValueId) : MemberMap :=
  (((a.kind? v).bind Kind.members?).getD ∅).filterMap fun slot => some slot.types

/-- A member's set as it is listed: a member never assigned stays, one of dead values only does
not. -/
def listed? (a : Analysis) (types : ValueSet) : Option ValueSet :=
  if types.isEmpty then some types
  else
    let types := a.shown types
    if types.isEmpty then none else some types

/-- All members of `v`, as unit `accessor` asks for them. -/
def members (a : Analysis) (v : ValueId) (accessor : UnitId) : Reply MemberMap :=
  let found := a.explore a.ownMembers MemberMap.merge a.guard v
  { answer := found.result.filterMap a.listed?
    state := a
    log := .enumerating v accessor :: found.trace.filterMap Step.event? }

end Analysis

end Prototypal
