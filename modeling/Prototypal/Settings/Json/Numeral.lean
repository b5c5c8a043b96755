import Prototypal.Settings.Json.Lexeme

/-!
# Prototypal — Settings — Json — Numeral

Numbers of JSON text: their spelling (`Numeral`), and what a spelling stands for
(`Numeral.number?`).  An integer of 64 bits is exact, anything else a double.  A double is computed
from the leading digits that fit in 64 bits and one power of ten at a time, so it can differ from
the nearest one in its last place.  A number too large for a double has no value.

Main statement: reading a numeral leaves less text than it was given (`readNumeral_length_lt`).
-/

namespace Prototypal.Json

/-- Whether the text being read is kept, or skipped over.  A kept value may open `room` more
brackets. -/
inductive Use where
  | kept (room : Nat)
  | skipped
deriving DecidableEq, Repr

/-- A number as it is spelled: sign, digits before and after the point, sign and digits of the
exponent. -/
structure Numeral where
  negative : Bool
  whole : List Char
  fraction : List Char := []
  exponent : Option (Bool × List Char) := none
deriving DecidableEq, Repr

/-- The fault where a digit is due and none follows.  A skipped number that the text ends in counts
as malformed. -/
def missingDigit : Use → List Char → Fault
  | .skipped, [] => .malformed []
  | _, s => .unexpected s

/-- The digits that the text begins with, of which there has to be one. -/
def readDigits (use : Use) (s : List Char) : Reading (List Char) :=
  if (s.takeWhile Char.isDigit).isEmpty then .error (missingDigit use s)
  else .ok (s.takeWhile Char.isDigit, s.dropWhile Char.isDigit)

theorem readDigits_length_lt {use : Use} {s r ds : List Char} (h : readDigits use s = .ok (ds, r)) :
    r.length < s.length := by
  unfold readDigits at h
  split at h
  · cases h
  · next hne =>
    obtain ⟨-, rfl⟩ := Prod.mk.inj (Except.ok.inj h)
    have := congrArg List.length (List.takeWhile_append_dropWhile (p := Char.isDigit) (l := s))
    rw [List.length_append] at this
    have : 0 < (s.takeWhile Char.isDigit).length := by
      cases hd : s.takeWhile Char.isDigit with
      | nil => simp [hd] at hne
      | cons => simp
    omega

/-- The digits before the point: a leading zero stands alone. -/
def readWhole (use : Use) : List Char → Reading (List Char)
  | '0' :: c :: s => if c.isDigit then .error (.malformed s) else .ok (['0'], c :: s)
  | s => readDigits use s

theorem readWhole_length_lt {use : Use} {s r ds : List Char} (h : readWhole use s = .ok (ds, r)) :
    r.length < s.length := by
  unfold readWhole at h
  split at h
  · split at h
    · cases h
    · cases h
      simp
  · exact readDigits_length_lt h

/-- The digits after the point, if there is one. -/
def readFraction (use : Use) : List Char → Reading (List Char)
  | '.' :: s => readDigits use s
  | s => .ok ([], s)

theorem readFraction_length_le {use : Use} {s r ds : List Char}
    (h : readFraction use s = .ok (ds, r)) : r.length ≤ s.length := by
  unfold readFraction at h
  split at h
  · have := readDigits_length_lt h
    simp only [List.length_cons]
    omega
  · cases h
    simp

/-- The sign of an exponent, and the text after it. -/
def exponentSign : List Char → Bool × List Char
  | '-' :: s => (true, s)
  | '+' :: s => (false, s)
  | s => (false, s)

theorem exponentSign_length_le (s : List Char) : (exponentSign s).2.length ≤ s.length := by
  unfold exponentSign
  split <;> simp

/-- The sign and the digits of the exponent, if there is one. -/
def readExponent (use : Use) : List Char → Reading (Option (Bool × List Char))
  | 'e' :: s | 'E' :: s =>
    (readDigits use (exponentSign s).2).map fun (ds, r) => (some ((exponentSign s).1, ds), r)
  | s => .ok (none, s)

theorem readExponent_length_le {use : Use} {s r : List Char} {e : Option (Bool × List Char)}
    (h : readExponent use s = .ok (e, r)) : r.length ≤ s.length := by
  have key : ∀ t : List Char, (readDigits use (exponentSign t).2).map
      (fun p => (some ((exponentSign t).1, p.1), p.2)) = .ok (e, r) → r.length ≤ t.length + 1 := by
    intro t ht
    obtain ⟨p, hd, hp⟩ := map_eq_ok.mp ht
    have := readDigits_length_lt hd
    have := exponentSign_length_le t
    rw [← (Prod.mk.inj hp).2]
    omega
  unfold readExponent at h
  split at h
  · exact key _ h
  · exact key _ h
  · cases h
    simp

/-- The digits, fraction and exponent of a numeral, from behind its sign. -/
def readUnsigned (use : Use) (negative : Bool) (s : List Char) : Reading Numeral :=
  match readWhole use s with
  | .error f => .error f
  | .ok (whole, s) =>
    match readFraction use s with
    | .error f => .error f
    | .ok (fraction, s) =>
      match readExponent use s with
      | .error f => .error f
      | .ok (exponent, s) => .ok ({ negative, whole, fraction, exponent }, s)

theorem readUnsigned_length_lt {use : Use} {negative : Bool} {s r : List Char} {n : Numeral}
    (h : readUnsigned use negative s = .ok (n, r)) : r.length < s.length := by
  unfold readUnsigned at h
  split at h
  · cases h
  · next hw =>
    split at h
    · cases h
    · next hf =>
      split at h
      · cases h
      · next he =>
        have := readWhole_length_lt hw
        have := readFraction_length_le hf
        have := readExponent_length_le he
        cases h
        omega

/-- A numeral. -/
def readNumeral (use : Use) : List Char → Reading Numeral
  | '-' :: s => readUnsigned use true s
  | s => readUnsigned use false s

theorem readNumeral_length_lt {use : Use} {s r : List Char} {n : Numeral}
    (h : readNumeral use s = .ok (n, r)) : r.length < s.length := by
  unfold readNumeral at h
  split at h
  · have := readUnsigned_length_lt h
    simp only [List.length_cons]
    omega
  · exact readUnsigned_length_lt h

/-! ### Values -/

/-- What a numeral stands for. -/
inductive Number where
  | integer (n : Int)
  | double (d : Double)
deriving DecidableEq, Repr

def digitValue (c : Char) : Nat := c.toNat - '0'.toNat

/-- The digits appended to `n` as long as the result has 64 bits, and how many were left over. -/
def significand (n : Nat) : List Char → Nat × Nat
  | [] => (n, 0)
  | c :: cs =>
    if n * 10 + digitValue c < UInt64.size then significand (n * 10 + digitValue c) cs
    else (n, cs.length + 1)

/-- A power of ten, correctly rounded. -/
def power10 (e : Nat) : Float := Float.ofScientific 1 false e

/-- `x / 10 ^ e`, by steps of what a double can hold. -/
def scaleDown (x : Float) (e : Nat) : Float :=
  if e ≤ 308 then x / power10 e
  else if x == 0 then x
  else scaleDown (x / power10 308) (e - 308)
termination_by e

/-- `n · 10 ^ e` as a double, if it is not too large. -/
def scaled? (n : Nat) (e : Int) : Option Float :=
  if e < 0 then some (scaleDown n.toFloat e.natAbs)
  else if e ≤ 308 then
    let x := n.toFloat * power10 e.toNat
    if x.isInf then none else some x
  else if n = 0 then some 0 else none

namespace Numeral

/-- The exponent as it is spelled. -/
def spelledExponent (n : Numeral) : Int :=
  match n.exponent with
  | none => 0
  | some (negative, ds) =>
    let e := ds.foldl (fun e c => e * 10 + digitValue c) 0
    if negative then -(e : Int) else e

/-- The double that a numeral with a fraction, with an exponent or of too many digits stands for. -/
def double? (n : Numeral) : Option Double :=
  let (whole, dropped) := significand 0 n.whole
  let (all, ignored) := significand whole n.fraction
  let places : Int := n.fraction.length - ignored
  (scaled? all (dropped - places + n.spelledExponent)).map fun x =>
    ⟨(if n.negative then -x else x).toBits⟩

/-- What a numeral stands for.  A negative zero and integers out of range are doubles. -/
def number? (n : Numeral) : Option Number :=
  let (whole, dropped) := significand 0 n.whole
  let isWhole := n.fraction.isEmpty && n.exponent.isNone && dropped == 0
  if isWhole && !n.negative then some (.integer whole)
  else if isWhole && 0 < whole && whole ≤ Nat.pow 2 63 then some (.integer (-whole))
  else n.double?.map .double

end Numeral

/-- What a numeral stands for; one without a value is malformed. -/
def readNumber (use : Use) (s : List Char) : Reading Number :=
  match readNumeral use s with
  | .error f => .error f
  | .ok (n, s) =>
    match n.number? with
    | some x => .ok (x, s)
    | none => .error (.malformed s)

theorem readNumber_length_lt {use : Use} {s r : List Char} {x : Number}
    (h : readNumber use s = .ok (x, r)) : r.length < s.length := by
  unfold readNumber at h
  split at h
  · cases h
  · next hn =>
    split at h
    · have := readNumeral_length_lt hn
      cases h
      exact this
    · cases h

end Prototypal.Json
