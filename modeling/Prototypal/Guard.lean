import Prototypal.Count

/-!
# Prototypal — Guard

The recursion guard (`Guard`): it keeps a descent through a cyclic graph finite and within budget.
A descent asks to enter a key and leaves it when done.  Entering is denied when the attempts exceed
their budget, when the key is being visited already, and when as many keys as allowed are being
visited, and the first of these reasons that holds is the one given.  Every attempt counts, also a
denied one; the count stops at `Count.top`, so that budget is never exceeded.
-/

namespace Prototypal

/-- Budgets of one resolution: how deep it may descend, and how often it may try to. -/
structure Limits where
  depth : Nat := Count.top
  attempts : Nat := Count.top
deriving DecidableEq, Repr, Inhabited

/-- What a guard answers to an attempt to enter. -/
inductive Admission where
  | entered
  | cycle
  | tooDeep
  | tooMany
deriving DecidableEq, Repr

namespace Admission

def isEntered (a : Admission) : Bool := a == entered

def isCycle (a : Admission) : Bool := a == cycle

/-- Denied by a budget. -/
def isExceeded (a : Admission) : Bool := a == tooDeep || a == tooMany

end Admission

/-- Misuse of a guard. -/
inductive GuardFault where
  | neverEntered
  | stillEntered (count : Nat)
deriving DecidableEq, Repr

def GuardFault.message : GuardFault → String
  | neverEntered => "left a resolution key that was never entered"
  | stillEntered n => "resolution guard dropped with " ++ toString n ++ " keys still entered"

/-- The keys being visited, latest first, and the number of attempts so far. -/
structure Guard (κ : Type) where
  limits : Limits
  visiting : List κ := []
  attempts : Nat := 0
deriving DecidableEq, Repr

namespace Guard

variable {κ : Type}

/-- The number of keys being visited. -/
def depth (g : Guard κ) : Nat := g.visiting.length

variable [DecidableEq κ]

def isVisiting (g : Guard κ) (k : κ) : Bool := decide (k ∈ g.visiting)

/-- The guard's answer to an attempt that is the `attempts`-th. -/
def admission (g : Guard κ) (k : κ) (attempts : Nat) : Admission :=
  if g.limits.attempts < attempts then .tooMany
  else if k ∈ g.visiting then .cycle
  else if g.limits.depth ≤ g.depth then .tooDeep
  else .entered

/-- Tries to enter a key. -/
def enter (g : Guard κ) (k : κ) : Admission × Guard κ :=
  let attempts := Count.next g.attempts
  match g.admission k attempts with
  | .entered => (.entered, { g with visiting := k :: g.visiting, attempts })
  | denied => (denied, { g with attempts })

/-- Leaves a key that is being visited. -/
def leave (g : Guard κ) (k : κ) : Except GuardFault (Guard κ) :=
  if k ∈ g.visiting then .ok { g with visiting := g.visiting.erase k } else .error .neverEntered

/-- Ends the resolution: no key may still be visited. -/
def finish (g : Guard κ) : Except GuardFault Unit :=
  if g.visiting.isEmpty then .ok () else .error (.stillEntered g.depth)

end Guard

end Prototypal
