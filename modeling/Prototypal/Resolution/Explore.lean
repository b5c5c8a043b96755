import Prototypal.Analysis.Basic
import Prototypal.Resolution.Descent

/-!
# Prototypal — Resolution — Explore

What a value has of its own, together with what it draws from its prototypes, from theirs, and so on
(`Analysis.explore`).  Prototypes are taken in ascending order, each under the guard; the starting
value itself is not entered, so a cycle may lead back to it once.

Every value entered on the way down but the last is an inheritor, and none is entered twice on one
way; so no way is longer than the number of inheritors and one (`Analysis.levels`), and exploring
that many levels explores all.
-/

namespace Prototypal.Analysis

variable {α : Type}

/-- How many levels of prototypes there can be below a value, on a way that repeats none. -/
def levels (a : Analysis) : Nat := a.inheritorCount + 1

/-- The guard of a new resolution. -/
def guard (a : Analysis) : Guard ValueId := { limits := a.options.limits }

/-- Merges what `own` gives for `v` and for the values it draws on, following `n` levels of
prototypes. -/
def exploreLevels (a : Analysis) (own : ValueId → α) (merge : α → α → α) :
    Nat → Guard ValueId → ValueId → Descent α
  | 0, g, v => ⟨own v, [.visit v], g⟩
  | n + 1, g, v =>
    let below := fanOut (a.exploreLevels own merge n) merge (own v) g (a.prototypes v)
    { below with trace := .visit v :: below.trace }

/-- Merges what `own` gives for `v` and for all values it draws on. -/
def explore (a : Analysis) (own : ValueId → α) (merge : α → α → α) (g : Guard ValueId)
    (v : ValueId) : Descent α :=
  a.exploreLevels own merge a.levels g v

end Prototypal.Analysis
