import Prototypal.Decimal.Shortest

/-!
# Prototypal — Decimal — Layout

How a double is written out (`Decimal.Layout`): positionally, with at least one place after the
point, where the exponent of its leading digit is in a given range, and with an exponent elsewhere.
-/

namespace Prototypal.Decimal

/-- The leading exponents written positionally, and the mark of an exponent that is not negative. -/
structure Layout where
  least : Int
  greatest : Int
  plus : String

namespace Layout

/-- The digits of a decimal with a point in its place, zeros filling the gap. -/
def positional (digits : List Char) (exponent : Int) : List Char :=
  let whole := (digits.length : Int) + exponent
  if 0 ≤ exponent then digits ++ List.replicate exponent.toNat '0' ++ ['.', '0']
  else if 0 < whole then digits.take whole.toNat ++ '.' :: digits.drop whole.toNat
  else '0' :: '.' :: List.replicate (-whole).toNat '0' ++ digits

/-- The digits of a decimal with a point after the first and the exponent of that. -/
def scientific (layout : Layout) (digits : List Char) (leading : Int) : List Char :=
  let places := match digits with
    | first :: second :: rest => first :: '.' :: second :: rest
    | short => short
  let mark := if leading < 0 then "-" else layout.plus
  places ++ 'e' :: mark.toList ++ (toString leading.natAbs).toList

/-- Writes a finite double. -/
def write (layout : Layout) (d : Double) : String :=
  let decimal := shortest d
  let digits := (toString decimal.digits).toList
  let leading := (digits.length : Int) - 1 + decimal.exponent
  let magnitude :=
    if layout.least ≤ leading ∧ leading ≤ layout.greatest then positional digits decimal.exponent
    else layout.scientific digits leading
  String.ofList (if d.isNegative then '-' :: magnitude else magnitude)

end Layout

end Prototypal.Decimal
