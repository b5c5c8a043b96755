import Prototypal.Event

/-!
# Prototypal — Resolution — Descent

Guarded descent from a value to those it draws on.  A descent gives a result, the steps it took
(`Step`), and the guard it leaves behind (`Descent`).  `fanOut` is the one way to descend: it tries
to enter each of a list of values in turn, lets each value it may enter contribute, and leaves it
again.
-/

namespace Prototypal

/-- A step of a descent. -/
inductive Step where
  /-- The own members of a value are read. -/
  | visit (v : ValueId)
  /-- An attempt to enter a value, with the depth and the count of attempts after it. -/
  | attempt (v : ValueId) (admission : Admission) (depth attempts : Nat)
  | leave (v : ValueId)
deriving DecidableEq, Repr

/-- What a step reports: an attempt that was denied. -/
def Step.event? : Step → Option Event
  | attempt v .cycle _ _ => some (.cycleSkipped v)
  | attempt v .tooDeep depth attempts => some (.limitReached v depth attempts)
  | attempt v .tooMany depth attempts => some (.limitReached v depth attempts)
  | _ => none

/-- The outcome of a descent. -/
structure Descent (α : Type) where
  result : α
  trace : List Step
  guard : Guard ValueId

namespace Descent

variable {α β : Type}

/-- Goes on with the result of a descent. -/
def andThen (d : Descent α) (f : Guard ValueId → α → Descent β) : Descent β :=
  let e := f d.guard d.result
  { e with trace := d.trace ++ e.trace }

end Descent

/-- Descends from `acc` into each listed value that the guard admits, merging in what `visit`
finds. -/
def fanOut {α : Type} (visit : Guard ValueId → ValueId → Descent α) (merge : α → α → α) :
    α → Guard ValueId → List ValueId → Descent α
  | acc, g, [] => ⟨acc, [], g⟩
  | acc, g, v :: vs =>
    match g.enter v with
    | (.entered, g) =>
      let found := visit g v
      let left := (found.guard.leave v).toOption.getD found.guard
      let rest := fanOut visit merge (merge acc found.result) left vs
      { rest with
        trace := .attempt v .entered g.depth g.attempts :: found.trace ++ .leave v :: rest.trace }
    | (denied, g) =>
      let rest := fanOut visit merge acc g vs
      { rest with trace := .attempt v denied g.depth g.attempts :: rest.trace }

end Prototypal
