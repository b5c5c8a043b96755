import Prototypal.Value.Double

/-!
# Prototypal — Decimal — Shortest

The shortest decimal that reads back as a given double (`Decimal.shortest`).  A double stands for
all reals that round to it: those between the midpoints to its neighbours, the midpoints themselves
if its significand is even.  Among the decimals of the fewest digits in that interval the nearest to
the double is taken, and of two equally near ones the one with an even last digit.

All comparisons are between natural numbers: with `scale`, a decimal `n · 10 ^ t` and a quarter unit
`x · 2 ^ (q - 2)` of the double's last place become `n · scale.1` and `x · scale.2`.
-/

namespace Prototypal

/-- The number `digits · 10 ^ exponent`. -/
structure Decimal where
  digits : Nat
  exponent : Int
deriving DecidableEq, Repr

namespace Decimal

/-- Common multiples of `10 ^ t` and `2 ^ q`, as `(10 ^ t · k, 2 ^ q · k)` for a natural `k`. -/
def scale (t q : Int) : Nat × Nat :=
  (Nat.pow 10 t.toNat * Nat.pow 2 (-q).toNat, Nat.pow 2 q.toNat * Nat.pow 10 (-t).toNat)

/-- The exponent of ten of the leading digit of `m · 2 ^ q`, for a positive `m`. -/
def leadingExponent (m : Nat) (q : Int) : Int :=
  let (den, num) := scale 0 q
  if den ≤ m * num then ((Nat.toDigits 10 (m * num / den)).length : Int) - 1
  else
    let places := (Nat.toDigits 10 (den / (m * num))).length
    if den ≤ m * num * Nat.pow 10 (places - 1) then 1 - (places : Int) else -places

/-- The decimal on the grid `10 ^ t` that lies within the interval of `m · 2 ^ q` and is nearest to
it; `quarter` says how many quarter units lie below. -/
def onGrid? (m : Nat) (q : Int) (quarter : Nat) (t : Int) : Option Decimal :=
  let (a, b) := scale t (q - 2)
  let value := 4 * m * b
  let low := (4 * m - quarter) * b
  let high := (4 * m + 2) * b
  let within (n : Nat) : Bool :=
    if m % 2 = 0 then low ≤ n * a && n * a ≤ high else low < n * a && n * a < high
  let n := value / a
  let below := value - n * a
  let above := (n + 1) * a - value
  match within n, within (n + 1) with
  | true, true =>
    if below < above || (below == above && n % 2 == 0) then some ⟨n, t⟩ else some ⟨n + 1, t⟩
  | true, false => some ⟨n, t⟩
  | false, true => some ⟨n + 1, t⟩
  | false, false => none

/-- Without trailing zeros, at most `n` of which are looked at. -/
def stripZeros : Nat → Decimal → Decimal
  | 0, d => d
  | n + 1, d =>
    if d.digits ≠ 0 ∧ d.digits % 10 = 0 then stripZeros n ⟨d.digits / 10, d.exponent + 1⟩ else d

/-- The shortest decimal that reads back as a finite double, its sign apart.  Seventeen digits
always do. -/
def shortest (d : Double) : Decimal :=
  let m := d.significand
  if m = 0 then ⟨0, 0⟩
  else
    let q : Int := d.exponent - 1075
    let quarter := if d.fraction = 0 ∧ 1 < d.exponentField then 1 else 2
    let p := leadingExponent m q
    let found := (List.range 17).findSome? fun (k : Nat) => onGrid? m q quarter (p - k)
    stripZeros 17 (found.getD ⟨0, 0⟩)

end Decimal

end Prototypal
