import Prototypal.Count
import Prototypal.Options
import Prototypal.Settings.Json.Record
import Prototypal.Text.Blank

/-!
# Prototypal — Settings — Options

The options of an analysis as JSON (`Settings.readOptions`), and a whole text of settings
(`Settings.readDocument`).  Limits are natural numbers of 32 bits.  Flags are booleans, or strings
that spell one out.
-/

namespace Prototypal.Settings

open Json

/-- A natural number of 32 bits. -/
def readCount (s : List Char) : Reading Nat :=
  match skipSpace s with
  | [] => .error .ended
  | c :: t =>
    if c = '-' || c.isDigit then
      match readNumber (.kept 0) (c :: t) with
      | .error f => .error f
      | .ok (.integer n, r) =>
        if 0 ≤ n ∧ n ≤ Count.top then .ok (n.toNat, r) else .error (.misfit (.outOfRange n) r)
      | .ok (.double d, r) => .error (.misfit (.wrongType (.float d) .count) r)
    else .error (refuse .count (c :: t))

theorem readCount_length_lt {s r : List Char} {n : Nat} (h : readCount s = .ok (n, r)) :
    r.length < s.length := by
  have hs := skipSpace_length_le s
  unfold readCount at h
  split at h
  · cases h
  · next c t he =>
    rw [he] at hs
    split at h
    · split at h
      · cases h
      · next hn =>
        split at h
        · cases h
          exact Nat.lt_of_lt_of_le (readNumber_length_lt hn) hs
        · cases h
      · cases h
    · cases h

/-- The flag that a string spells out.  Only letters from A to Z matter: no other character is a
capital form of a letter in these words. -/
def flag? (s : String) : Option Bool :=
  match Text.keyword s with
  | "true" | "1" | "yes" | "on" => some true
  | "false" | "0" | "no" | "off" => some false
  | _ => none

/-- A boolean, or a string that spells one out.  Any other value is passed over before it is
refused. -/
def readFlag (room : Nat) (s : List Char) : Reading Bool :=
  match skipSpace s with
  | '"' :: t =>
    match readText [] t with
    | .error f => .error f
    | .ok (word, r) =>
      match flag? word with
      | some b => .ok (b, r)
      | none => .error (.unsettled (.unknownFlag word) r)
  | 't' :: t => (readWord ['r', 'u', 'e'] t).map (true, ·)
  | 'f' :: t => (readWord ['a', 'l', 's', 'e'] t).map (false, ·)
  | t =>
    match passOver (.kept room) t with
    | .error f => .error f
    | .ok r => .error (.unsettled .noFlag r)

theorem readFlag_length_lt {room : Nat} {s r : List Char} {b : Bool}
    (h : readFlag room s = .ok (b, r)) : r.length < s.length := by
  have word : ∀ {w t : List Char} {c : Bool},
      (readWord w t).map (c, ·) = .ok (b, r) → r.length ≤ t.length := by
    intro w t c ht
    obtain ⟨x, hw, hx⟩ := map_eq_ok.mp ht
    exact (Prod.mk.inj hx).2 ▸ readWord_length_le hw
  unfold readFlag at h
  split at h
  · next he =>
    split at h
    · cases h
    · next ht =>
      split at h
      · cases h
        exact Nat.lt_trans (readText_length_lt ht) (length_lt_of_skipSpace he)
      · cases h
  · next he => exact Nat.lt_of_le_of_lt (word h) (length_lt_of_skipSpace he)
  · next he => exact Nat.lt_of_le_of_lt (word h) (length_lt_of_skipSpace he)
  · split at h <;> simp at h

/-- A field of the options that is a limit. -/
def countField (name : String) (set : Nat → Options → Options) : RecordField Options where
  name
  read _ s :=
    match readCount s with
    | .ok (n, r) => .ok (set n, r)
    | .error f => .error f
  length_lt h := by
    split at h
    · next hc =>
      cases h
      exact readCount_length_lt hc
    · cases h

/-- A field of the options that is a flag. -/
def flagField (name : String) (set : Bool → Options → Options) : RecordField Options where
  name
  read room s :=
    match readFlag room s with
    | .ok (b, r) => .ok (set b, r)
    | .error f => .error f
  length_lt h := by
    split at h
    · next hc =>
      cases h
      exact readFlag_length_lt hc
    · cases h

/-- The fields of the options, in the order in which an array gives them. -/
def optionFields : List (RecordField Options) :=
  [countField "maxPrototypeDepth" fun n o => { o with limits := { o.limits with depth := n } },
    countField "maxResolutionIterations" fun n o =>
      { o with limits := { o.limits with attempts := n } },
    flagField "trackReferences" fun b o => { o with recordsUsages := b },
    flagField "filterDeadValues" fun b o => { o with hidesDead := b }]

/-- The options, completed by the defaults. -/
def readOptions (room : Nat) (s : List Char) : Reading Options :=
  readRecord "AnalyzerOptions" optionFields {} room s

/-- What is wrong with a text of settings, and on which line. -/
structure Problem where
  cause : Cause
  line : Nat
deriving DecidableEq, Repr

/-- How many brackets may be open at a time in what is kept. -/
def maxNesting : Nat := 127

/-- Reads a text as a whole: only space may follow what is read. -/
def readDocument {α : Type} (read : Nat → List Char → Reading α) (text : List Char) :
    Except Problem α :=
  let problem (f : Fault) : Problem := ⟨f.cause, f.line text⟩
  match read maxNesting text with
  | .error f => .error (problem f)
  | .ok (a, rest) =>
    match skipSpace rest with
    | [] => .ok a
    | _ :: r => .error (problem (.malformed r))

/-- The options that a JSON text gives. -/
def parseOptions (text : String) : Except Problem Options := readDocument readOptions text.toList

end Prototypal.Settings
