/-!
# Prototypal — Count

Counters of bounded range.  Versions of source units and resolution steps are counted up to the
largest 32-bit number, and stay there.
-/

namespace Prototypal.Count

/-- The number at which counters stop; as a budget it is one that no counter exceeds. -/
def top : Nat := 4294967295

/-- The count after `n`. -/
def next (n : Nat) : Nat := min (n + 1) top

theorem next_le_top (n : Nat) : next n ≤ top := Nat.min_le_right _ _

theorem le_next {n : Nat} (h : n ≤ top) : n ≤ next n := Nat.le_min.2 ⟨Nat.le_succ n, h⟩

end Prototypal.Count
