import Prototypal.Decimal.Layout
import Prototypal.Text.Quoted

/-!
# Prototypal — Settings — Json — Fault

What can be wrong with a text of settings (`Json.Fault`): it is malformed, it ends too early, or it
is well formed so far and means nothing that is asked for (`Json.Misfit`).  A fault is placed by the
text that was still to be read when it was met, which gives its line.
-/

namespace Prototypal.Json

/-- A value that is not of the type asked for. -/
inductive Found where
  | null
  | boolean (b : Bool)
  | integer (n : Int)
  | float (d : Double)
  | text (s : String)
  | sequence
  | map
deriving DecidableEq, Repr

/-- What was asked for. -/
inductive Wanted where
  | count
  | record (title : String)
deriving DecidableEq, Repr

/-- Why a well-formed value is refused. -/
inductive Misfit where
  | wrongType (found : Found) (wanted : Wanted)
  | outOfRange (n : Int)
  | duplicate (field : String)
  | unknownFlag (s : String)
  | noFlag
deriving DecidableEq, Repr

/-- Doubles in messages are positional from `0.00001` to below `10^16`. -/
def doubleLayout : Decimal.Layout := ⟨-5, 15, "+"⟩

def Found.message : Found → String
  | null => "null"
  | boolean b => "boolean `" ++ toString b ++ "`"
  | integer n => "integer `" ++ toString n ++ "`"
  | float d => "floating point `" ++ doubleLayout.write d ++ "`"
  | text s => "string " ++ Text.quoted s
  | sequence => "sequence"
  | map => "map"

def Wanted.message : Wanted → String
  | count => "u32"
  | record title => "struct " ++ title

def Misfit.message : Misfit → String
  | wrongType found wanted => "invalid type: " ++ found.message ++ ", expected " ++ wanted.message
  | outOfRange n =>
    "invalid value: integer `" ++ toString n ++ "`, expected " ++ Wanted.count.message
  | duplicate field => "duplicate field `" ++ field ++ "`"
  | unknownFlag s =>
    "invalid boolean value: '" ++ s ++ "'. Expected true, false, 'true', or 'false'"
  | noFlag => "data did not match any variant of untagged enum BoolOrString"

/-- The kinds of faults. -/
inductive Cause where
  | malformed
  | ended
  | misfit (m : Misfit)
deriving DecidableEq, Repr

/-- A fault, with the text still to be read.  One that concerns a record as a whole is not settled
until the reader has tried to close the record. -/
structure Fault where
  cause : Cause
  rest : List Char
  settled : Bool := true
deriving DecidableEq, Repr

namespace Fault

/-- The text is malformed just before `rest`. -/
def malformed (rest : List Char) : Fault := { cause := .malformed, rest }

/-- The text ends where something is due. -/
def ended : Fault := { cause := .ended, rest := [] }

/-- The text does not go on as it should: it ends, or its next character is a wrong one. -/
def unexpected : List Char → Fault
  | [] => ended
  | _ :: rest => malformed rest

/-- A value that ends before `rest` is refused. -/
def misfit (m : Misfit) (rest : List Char) : Fault := { cause := .misfit m, rest }

/-- A refusal that concerns the record being read. -/
def unsettled (m : Misfit) (rest : List Char) : Fault :=
  { cause := .misfit m, rest, settled := false }

/-- Moves a fault that is not settled to where closing the record leads. -/
def settle (close : List Char → List Char) (f : Fault) : Fault :=
  if f.settled then f else { f with rest := close f.rest, settled := true }

/-- The line of a fault in the text it was met in, counted from 1. -/
def line (f : Fault) (text : List Char) : Nat := 1 + (text.count '\n' - f.rest.count '\n')

end Fault

/-- What reading gives: something and the rest of the text, or a fault. -/
abbrev Reading (α : Type) := Except Fault (α × List Char)

/-- Reading something only to pass over it. -/
def restOf {α : Type} (x : Reading α) : Except Fault (List Char) :=
  match x with
  | .ok (_, rest) => .ok rest
  | .error f => .error f

theorem restOf_eq_ok {α : Type} {x : Reading α} {rest : List Char} :
    restOf x = .ok rest ↔ ∃ a, x = .ok (a, rest) := by
  rcases x with f | ⟨a, s⟩ <;> simp [restOf]

theorem map_eq_ok {α β : Type} {x : Except Fault α} {f : α → β} {b : β} :
    x.map f = .ok b ↔ ∃ a, x = .ok a ∧ f a = b := by
  cases x <;> simp [Except.map]

end Prototypal.Json
