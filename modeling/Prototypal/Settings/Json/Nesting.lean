import Prototypal.Settings.Json.Numeral

/-!
# Prototypal — Settings — Json — Nesting

Passing over a whole JSON value, however deep (`passOver`).  The brackets still open are kept on a
stack; a kept value may open only so many of them, a skipped one any number.

Main statement: passing over a value leaves less text than before (`passOver_length_lt`).
-/

namespace Prototypal.Json

/-- The brackets of arrays and objects. -/
inductive Bracket where
  | square
  | curly
deriving DecidableEq, Repr

def Bracket.closing : Bracket → Char
  | square => ']'
  | curly => '\x7d'

/-- The text after a string, from behind its opening quote. -/
def passText : Use → List Char → Except Fault (List Char)
  | .kept _, s => restOf (readText [] s)
  | .skipped, s => skipText s

theorem passText_length_lt {use : Use} {s r : List Char} (h : passText use s = .ok r) :
    r.length < s.length := by
  cases use with
  | kept room =>
    obtain ⟨t, ht⟩ := restOf_eq_ok.1 h
    exact readText_length_lt ht
  | skipped => exact skipText_length_lt h

/-- The text after a number; one that is kept has to have a value. -/
def passNumber : Use → List Char → Except Fault (List Char)
  | .kept room, s => restOf (readNumber (.kept room) s)
  | .skipped, s => restOf (readNumeral .skipped s)

theorem passNumber_length_lt {use : Use} {s r : List Char} (h : passNumber use s = .ok r) :
    r.length < s.length := by
  cases use with
  | kept room =>
    obtain ⟨x, hx⟩ := restOf_eq_ok.1 h
    exact readNumber_length_lt hx
  | skipped =>
    obtain ⟨n, hn⟩ := restOf_eq_ok.1 h
    exact readNumeral_length_lt hn

/-- The text after a value without brackets. -/
def passScalar (use : Use) : List Char → Except Fault (List Char)
  | [] => .error .ended
  | '"' :: s => passText use s
  | 'n' :: s => readWord ['u', 'l', 'l'] s
  | 't' :: s => readWord ['r', 'u', 'e'] s
  | 'f' :: s => readWord ['a', 'l', 's', 'e'] s
  | c :: s => if c = '-' || c.isDigit then passNumber use (c :: s) else .error (.malformed s)

theorem passScalar_length_lt {use : Use} {s r : List Char} (h : passScalar use s = .ok r) :
    r.length < s.length := by
  unfold passScalar at h
  split at h
  · cases h
  · exact Nat.lt_succ_of_lt (passText_length_lt h)
  · exact Nat.lt_succ_of_le (readWord_length_le h)
  · exact Nat.lt_succ_of_le (readWord_length_le h)
  · exact Nat.lt_succ_of_le (readWord_length_le h)
  · split at h
    · exact passNumber_length_lt h
    · cases h

/-- The text after a colon. -/
def passColon (s : List Char) : Except Fault (List Char) :=
  match skipSpace s with
  | ':' :: r => .ok r
  | r => .error (.unexpected r)

theorem passColon_length_lt {s r : List Char} (h : passColon s = .ok r) : r.length < s.length := by
  unfold passColon at h
  split at h
  · next he =>
    cases h
    exact length_lt_of_skipSpace he
  · cases h

/-- The text after the name of a member and its colon. -/
def passKey (use : Use) (s : List Char) : Except Fault (List Char) :=
  match skipSpace s with
  | '"' :: r =>
    match passText use r with
    | .ok r => passColon r
    | .error f => .error f
  | r => .error (.unexpected r)

theorem passKey_length_lt {use : Use} {s r : List Char} (h : passKey use s = .ok r) :
    r.length < s.length := by
  unfold passKey at h
  split at h
  · next he =>
    split at h
    · next ht =>
      exact Nat.lt_trans (passColon_length_lt h)
        (Nat.lt_trans (passText_length_lt ht) (length_lt_of_skipSpace he))
    · cases h
  · cases h

/-- Whether another bracket may be opened within those already open. -/
def Use.admits : Use → List Bracket → Bool
  | .kept room, stack => stack.length < room
  | .skipped, _ => true

/-- What comes next: a value, or what follows one. -/
inductive Due where
  | value
  | rest
deriving DecidableEq, Repr

/-- The text after the values that the open brackets wait for. -/
def passBrackets (use : Use) : Due → List Bracket → List Char → Except Fault (List Char)
  | .value, stack, s =>
    match _h : skipSpace s with
    | '[' :: r =>
      if use.admits stack then
        match _h' : skipSpace r with
        | ']' :: r' => passBrackets use .rest stack r'
        | _ => passBrackets use .value (.square :: stack) r
      else .error (.malformed r)
    | '\x7b' :: r =>
      if use.admits stack then
        match _h' : skipSpace r with
        | '\x7d' :: r' => passBrackets use .rest stack r'
        | _ =>
          match _hk : passKey use r with
          | .ok r' => passBrackets use .value (.curly :: stack) r'
          | .error f => .error f
      else .error (.malformed r)
    | s' =>
      match _hv : passScalar use s' with
      | .ok r => passBrackets use .rest stack r
      | .error f => .error f
  | .rest, [], s => .ok s
  | .rest, b :: stack, s =>
    match _h : skipSpace s with
    | [] => .error .ended
    | c :: r =>
      if c = b.closing then passBrackets use .rest stack r
      else if c = ',' then
        match b with
        | .square => passBrackets use .value (b :: stack) r
        | .curly =>
          match _hk : passKey use r with
          | .ok r' => passBrackets use .value (b :: stack) r'
          | .error f => .error f
      else .error (.malformed r)
termination_by _ _ s => s.length
decreasing_by
  · exact Nat.lt_trans (length_lt_of_skipSpace _h') (length_lt_of_skipSpace _h)
  · exact length_lt_of_skipSpace _h
  · exact Nat.lt_trans (length_lt_of_skipSpace _h') (length_lt_of_skipSpace _h)
  · exact Nat.lt_trans (passKey_length_lt _hk) (length_lt_of_skipSpace _h)
  · exact Nat.lt_of_lt_of_le (passScalar_length_lt _hv) (_h ▸ skipSpace_length_le s)
  · exact length_lt_of_skipSpace _h
  · exact length_lt_of_skipSpace _h
  · exact Nat.lt_trans (passKey_length_lt _hk) (length_lt_of_skipSpace _h)

/-- The text after a JSON value. -/
def passOver (use : Use) (s : List Char) : Except Fault (List Char) := passBrackets use .value [] s

theorem passBrackets_length_le {use : Use} {due : Due} {stack : List Bracket} {s r : List Char}
    (h : passBrackets use due stack s = .ok r) :
    r.length + (if due = .value then 1 else 0) ≤ s.length := by
  fun_induction passBrackets use due stack s <;>
    grind [skipSpace_length_le, → length_lt_of_skipSpace, → passKey_length_lt,
      → passScalar_length_lt]

theorem passOver_length_lt {use : Use} {s r : List Char} (h : passOver use s = .ok r) :
    r.length < s.length :=
  passBrackets_length_le h

end Prototypal.Json
