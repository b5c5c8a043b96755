import Prototypal.Guard

/-!
# Prototypal — Options

How an analysis is to work (`Options`): the budgets of a resolution, whether the places of reading
are recorded, and whether values of torn-down units are kept out of answers.
-/

namespace Prototypal

/-- Settings of an analysis.  By default budgets are never exceeded and everything is switched
on. -/
structure Options where
  limits : Limits := {}
  recordsUsages : Bool := true
  hidesDead : Bool := true
deriving DecidableEq, Repr, Inhabited

namespace Options

/-- The settings on one line, as written to the log. -/
def summary (o : Options) : String :=
  "AnalyzerOptions \x7b max_prototype_depth: " ++ toString o.limits.depth ++
    ", max_resolution_iterations: " ++ toString o.limits.attempts ++
    ", track_references: " ++ toString o.recordsUsages ++
    ", filter_dead_values: " ++ toString o.hidesDead ++ " \x7d"

end Options

end Prototypal
