import Prototypal.Settings.Json.Nesting

/-!
# Prototypal — Settings — Json — Record

Records in JSON text (`readRecord`).  A record is an object whose members are its fields, in any
order, each at most once, members of other names being skipped; or an array of its fields in their
declared order, of which the last may be missing.  Fields that are missing keep what the record
starts from.

A fault that concerns the record as a whole is placed where the reader stands once it has tried to
close the record (`Fault.settle`).

Main statement: reading a record leaves less text than before (`readRecord_length_lt`).
-/

namespace Prototypal.Json

variable {ρ : Type}

/-- A field of a record: its name, and how its value, in which `room` brackets may be opened,
changes the record. -/
structure RecordField (ρ : Type) where
  name : String
  read (room : Nat) (s : List Char) : Reading (ρ → ρ)
  length_lt : ∀ {room s u r}, read room s = .ok (u, r) → r.length < s.length

/-! ### Values of a wrong type -/

/-- Refuses the value that the text begins with, once it has been read.  Arrays and objects are not
looked into. -/
def refuse (wanted : Wanted) (s : List Char) : Fault :=
  let found (x : Except Fault (Found × List Char)) : Fault :=
    match x with
    | .ok (found, r) => .misfit (.wrongType found wanted) r
    | .error f => f
  let word (w : List Char) (what : Found) (r : List Char) : Fault :=
    found ((readWord w r).map (what, ·))
  match s with
  | '[' :: _ => .misfit (.wrongType .sequence wanted) s
  | '\x7b' :: _ => .misfit (.wrongType .map wanted) s
  | '"' :: r => found ((readText [] r).map fun (t, r) => (.text t, r))
  | 'n' :: r => word ['u', 'l', 'l'] .null r
  | 't' :: r => word ['r', 'u', 'e'] (.boolean true) r
  | 'f' :: r => word ['a', 'l', 's', 'e'] (.boolean false) r
  | [] => .ended
  | c :: r =>
    if c = '-' || c.isDigit then
      found ((readNumber (.kept 0) s).map fun (x, r) =>
        match x with
        | .integer n => (.integer n, r)
        | .double d => (.float d, r))
    else .malformed r

/-! ### Objects -/

/-- The text from the next member on.  A comma has to precede all but the first. -/
def nextMember : Bool → List Char → Except Fault (List Char)
  | true, s => .ok s
  | false, ',' :: s => .ok (skipSpace s)
  | false, s => .error (.unexpected s)

theorem nextMember_length_le {first : Bool} {s r : List Char} (h : nextMember first s = .ok r) :
    r.length ≤ s.length := by
  unfold nextMember at h
  split at h
  · cases h
    simp
  · cases h
    exact Nat.le_succ_of_le (skipSpace_length_le _)
  · cases h

/-- The name of the next member. -/
def readKey (first : Bool) (s : List Char) : Reading String :=
  match nextMember first s with
  | .ok ('"' :: r) => readText [] r
  | .ok r => .error (.unexpected r)
  | .error f => .error f

theorem readKey_length_lt {first : Bool} {s r : List Char} {key : String}
    (h : readKey first s = .ok (key, r)) : r.length < s.length := by
  unfold readKey at h
  split at h
  · next hn =>
    exact Nat.lt_of_lt_of_le (Nat.lt_succ_of_lt (readText_length_lt h)) (nextMember_length_le hn)
  · cases h
  · cases h

/-- The value of a member that is no field is skipped, that of a field changes the record. -/
def readValue (fields : List (RecordField ρ)) (room : Nat) (key : String) (s : List Char) :
    Reading (ρ → ρ) :=
  match passColon s with
  | .error f => .error f
  | .ok r =>
    match fields.find? (·.name == key) with
    | some field => field.read room r
    | none =>
      match passOver .skipped r with
      | .ok r => .ok (id, r)
      | .error f => .error f

theorem readValue_length_lt {fields : List (RecordField ρ)} {room : Nat} {key : String}
    {s r : List Char} {u : ρ → ρ} (h : readValue fields room key s = .ok (u, r)) :
    r.length < s.length := by
  unfold readValue at h
  split at h
  · cases h
  · next hc =>
    refine Nat.lt_trans ?_ (passColon_length_lt hc)
    split at h
    · next field _ => exact field.length_lt h
    · split at h
      · next hp =>
        cases h
        exact passOver_length_lt hp
      · cases h

/-- The members of an object from behind its bracket or behind a member, up to its closing bracket;
`seen` are the names so far. -/
def readMembers (fields : List (RecordField ρ)) (room : Nat) (seen : List String) (acc : ρ)
    (s : List Char) : Reading ρ :=
  match _h : skipSpace s with
  | '\x7d' :: r => .ok (acc, r)
  | t =>
    match _hk : readKey seen.isEmpty t with
    | .error f => .error f
    | .ok (key, r) =>
      if fields.any (·.name == key) && seen.contains key then .error (.unsettled (.duplicate key) r)
      else
        match _hv : readValue fields room key r with
        | .error f => .error f
        | .ok (change, r') => readMembers fields room (key :: seen) (change acc) r'
termination_by s.length
decreasing_by
  exact Nat.lt_trans (readValue_length_lt _hv)
    (Nat.lt_of_lt_of_le (readKey_length_lt _hk) (_h ▸ skipSpace_length_le s))

theorem readMembers_length_lt {fields : List (RecordField ρ)} {room : Nat} {seen : List String}
    {acc a : ρ} {s r : List Char} (h : readMembers fields room seen acc s = .ok (a, r)) :
    r.length < s.length := by
  fun_induction readMembers fields room seen acc s <;>
    grind [skipSpace_length_le, → length_lt_of_skipSpace, → readKey_length_lt,
      → readValue_length_lt]

/-- The text after the closing bracket of an object, if it comes next. -/
def closeObject (s : List Char) : List Char :=
  match skipSpace s with
  | '\x7d' :: r => r
  | r => r

/-! ### Arrays -/

/-- The next element of an array, of which all but the first follow a comma; none before the closing
bracket. -/
def nextElement (first : Bool) (s : List Char) : Except Fault (Option (List Char)) :=
  match skipSpace s with
  | [] => .error .ended
  | ']' :: _ => .ok none
  | c :: r =>
    if first then .ok (some (c :: r))
    else if c = ',' then
      match skipSpace r with
      | [] => .error .ended
      | ']' :: r => .error (.malformed r)
      | r => .ok (some r)
    else .error (.malformed r)

/-- The elements of an array as the given fields, as far as there are any. -/
def readElements (room : Nat) : List (RecordField ρ) → Bool → ρ → List Char → Reading ρ
  | [], _, acc, s => .ok (acc, s)
  | field :: fields, first, acc, s =>
    match nextElement first s with
    | .error f => .error f
    | .ok none => .ok (acc, s)
    | .ok (some r) =>
      match field.read room r with
      | .error f => .error f
      | .ok (change, r) => readElements room fields false (change acc) r

theorem nextElement_length_le {first : Bool} {s r : List Char}
    (h : nextElement first s = .ok (some r)) : r.length ≤ s.length := by
  unfold nextElement at h
  split at h
  · cases h
  · cases h
  · next c t _ he =>
    have hs := length_lt_of_skipSpace he
    split at h
    · cases h
      exact hs
    · split at h
      · split at h
        · cases h
        · cases h
        · cases h
          exact Nat.le_of_lt (Nat.lt_of_le_of_lt (skipSpace_length_le _) hs)
      · cases h

theorem readElements_length_le {room : Nat} {fields : List (RecordField ρ)} {first : Bool}
    {acc a : ρ} {s r : List Char} (h : readElements room fields first acc s = .ok (a, r)) :
    r.length ≤ s.length := by
  induction fields generalizing first acc s with
  | nil =>
    cases h
    exact Nat.le_refl _
  | cons field fields ih =>
    unfold readElements at h
    split at h
    · cases h
    · cases h
      simp
    · next he =>
      split at h
      · cases h
      · next hf =>
        exact Nat.le_trans (ih h)
          (Nat.le_of_lt (Nat.lt_of_lt_of_le (field.length_lt hf) (nextElement_length_le he)))

/-- The text after the closing bracket of an array, where no more elements are due. -/
def endArray (s : List Char) : Except Fault (List Char) :=
  match skipSpace s with
  | ']' :: r => .ok r
  | ',' :: r => .error (.malformed ((skipSpace r).drop 1))
  | r => .error (.unexpected r)

theorem endArray_length_lt {s r : List Char} (h : endArray s = .ok r) : r.length < s.length := by
  unfold endArray at h
  split at h
  · next he =>
    cases h
    exact length_lt_of_skipSpace he
  · cases h
  · cases h

/-- The text after the closing bracket of an array or after a comma, if one comes next. -/
def closeArray (s : List Char) : List Char :=
  match skipSpace s with
  | ']' :: r => r
  | ',' :: r => skipSpace r
  | r => r

/-! ### Records -/

/-- The fields of a record in an array, from behind its bracket. -/
def readArray (fields : List (RecordField ρ)) (init : ρ) (room : Nat) (s : List Char) : Reading ρ :=
  match readElements room fields true init s with
  | .error f => .error (f.settle closeArray)
  | .ok (a, r) =>
    match endArray r with
    | .error f => .error f
    | .ok r => .ok (a, r)

/-- The fields of a record in an object, from behind its bracket. -/
def readObject (fields : List (RecordField ρ)) (init : ρ) (room : Nat) (s : List Char) :
    Reading ρ :=
  match readMembers fields room [] init s with
  | .error f => .error (f.settle closeObject)
  | .ok x => .ok x

/-- A record of the given title and fields.  The record itself opens one of the brackets there is
room for. -/
def readRecord (title : String) (fields : List (RecordField ρ)) (init : ρ) (room : Nat)
    (s : List Char) : Reading ρ :=
  match skipSpace s, room with
  | '[' :: r, room + 1 => readArray fields init room r
  | '\x7b' :: r, room + 1 => readObject fields init room r
  | '[' :: r, 0 | '\x7b' :: r, 0 => .error (.malformed r)
  | r, _ => .error (refuse (.record title) r)

theorem readRecord_length_lt {title : String} {fields : List (RecordField ρ)} {init a : ρ}
    {room : Nat} {s r : List Char} (h : readRecord title fields init room s = .ok (a, r)) :
    r.length < s.length := by
  unfold readRecord at h
  split at h
  · next he =>
    refine Nat.lt_trans ?_ (length_lt_of_skipSpace he)
    unfold readArray at h
    split at h
    · cases h
    · next hel =>
      split at h
      · cases h
      · next hend =>
        cases h
        exact Nat.lt_of_lt_of_le (endArray_length_lt hend) (readElements_length_le hel)
  · next he =>
    refine Nat.lt_trans ?_ (length_lt_of_skipSpace he)
    unfold readObject at h
    split at h
    · cases h
    · next hm =>
      cases h
      exact readMembers_length_lt hm
  · cases h
  · cases h
  · cases h

end Prototypal.Json
