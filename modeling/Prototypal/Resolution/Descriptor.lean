import Prototypal.Resolution.Explore

/-!
# Prototypal — Resolution — Descriptor

How to read a member (`Descriptor`).  A plain object or function has a stored descriptor for a
member of its own.  An inheritor has none if it has no prototype, that of its prototype if it has
one, and a merged one if it has several: that is evaluated anew on each reading, from the prototypes
at that time, so it is not to be kept.  The own members of an inheritor are not described.
-/

namespace Prototypal

/-- How the values of a member are obtained. -/
inductive Descriptor where
  /-- From the member's slot in `owner`. -/
  | stored (owner : ValueId) (name : String)
  /-- From every prototype of `inheritor`. -/
  | merged (inheritor : ValueId) (name : String)
deriving DecidableEq, Repr

namespace Descriptor

def name : Descriptor → String
  | stored _ name | merged _ name => name

/-- Whether the descriptor is to be asked for again before each reading. -/
def isEphemeral : Descriptor → Bool
  | stored .. => false
  | merged .. => true

end Descriptor

namespace Analysis

/-- The descriptor of a member of `v`, passing through at most `n` inheritors of one prototype. -/
def describeLevels (a : Analysis) (name : String) :
    Nat → Guard ValueId → ValueId → Descent (Option Descriptor)
  | n, g, v =>
    match a.kind? v with
    | some (.object members) | some (.function _ members _) =>
      ⟨if members.contains name then some (.stored v name) else none, [], g⟩
    | some (.inheritor _ prototypes) =>
      match prototypes.toList, n with
      | [], _ => ⟨none, [], g⟩
      | [_], 0 => ⟨none, [], g⟩
      | [p], n + 1 => fanOut (a.describeLevels name n) (fun _ found => found) none g [p]
      | _ :: _ :: _, _ => ⟨some (.merged v name), [], g⟩
    | _ => ⟨none, [], g⟩

/-- The descriptor of a member of `v`. -/
def describe (a : Analysis) (name : String) (g : Guard ValueId) (v : ValueId) :
    Descent (Option Descriptor) :=
  a.describeLevels name a.levels g v

/-- What prototype `p` adds to the reading of a merged descriptor: what `read` makes of its own
descriptor of the member, if it has one. -/
def contribution (a : Analysis) (name : String)
    (read : Guard ValueId → Descriptor → Descent ValueSet) (g : Guard ValueId) (p : ValueId) :
    Descent ValueSet :=
  (a.describe name g p).andThen fun g found =>
    match found with
    | some d => read g d
    | none => ⟨∅, [], g⟩

/-- The values that a descriptor gives, following `n` levels of merged ones. -/
def evaluateLevels (a : Analysis) : Nat → Guard ValueId → Descriptor → Descent ValueSet
  | _, g, .stored owner name => ⟨a.ownTypes owner name, [.visit owner], g⟩
  | 0, g, .merged _ _ => ⟨∅, [], g⟩
  | n + 1, g, .merged v name =>
    fanOut (a.contribution name (a.evaluateLevels n)) (· ∪ ·) ∅ g (a.prototypes v)

/-- The values that a descriptor gives. -/
def evaluate (a : Analysis) (g : Guard ValueId) (d : Descriptor) : Descent ValueSet :=
  a.evaluateLevels a.levels g d

end Analysis

end Prototypal
