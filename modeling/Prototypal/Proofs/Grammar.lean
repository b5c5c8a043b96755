import Prototypal.Settings.Json.Lexeme

/-!
# Prototypal — Proofs — Grammar

The grammar of JSON texts, in two dialects (`Json.Dialect`).  The relaxed dialect has comments
wherever there may be space, and a comma may follow the last element of an array and the last member
of an object.

A text is related to what it says (`Json.Writes`): the tree of its values with words, numbers and
strings as they are spelled, elements and members in their order (`Json.Tree`).  Values and what
stands between the commas of arrays and objects are derived by one relation over phrases
(`Json.Spells`), so that a fact about all of them is proved by one induction.
-/

namespace Prototypal.Json

/-- What a JSON text says.  Numbers and strings are kept as they are spelled, strings without their
quotes. -/
inductive Tree where
  | null
  | boolean (b : Bool)
  | number (spelling : List Char)
  | text (spelling : List Char)
  | array (elements : List Tree)
  | object (members : List (List Char × Tree))

/-! ### Numbers and strings -/

/-- One digit or more. -/
def IsDigits (s : List Char) : Prop := s ≠ [] ∧ ∀ c ∈ s, c.isDigit = true

/-- The digits before the point; a leading zero stands alone. -/
inductive IsWhole : List Char → Prop where
  | zero : IsWhole ['0']
  | digits {c : Char} {s : List Char} (hc : c.isDigit = true) (h0 : c ≠ '0')
      (hs : ∀ d ∈ s, d.isDigit = true) : IsWhole (c :: s)

/-- The point and the digits after it, if there are any. -/
inductive IsFraction : List Char → Prop where
  | none : IsFraction []
  | digits {s : List Char} (h : IsDigits s) : IsFraction ('.' :: s)

/-- The exponent, if there is one. -/
inductive IsExponent : List Char → Prop where
  | none : IsExponent []
  | digits {e : Char} {sign s : List Char} (he : e = 'e' ∨ e = 'E')
      (hsign : sign = [] ∨ sign = ['+'] ∨ sign = ['-']) (h : IsDigits s) :
      IsExponent (e :: sign ++ s)

inductive IsNumber : List Char → Prop where
  | parts {sign whole fraction exponent : List Char} (hsign : sign = [] ∨ sign = ['-'])
      (hwhole : IsWhole whole) (hfraction : IsFraction fraction)
      (hexponent : IsExponent exponent) : IsNumber (sign ++ whole ++ fraction ++ exponent)

/-- What may stand between the quotes of a string. -/
inductive IsText : List Char → Prop where
  | nil : IsText []
  | plain {c : Char} {s : List Char} (hcontrol : 0x20 ≤ c.toNat) (hquote : c ≠ '"')
      (hescape : c ≠ '\\') (h : IsText s) : IsText (c :: s)
  | short {c : Char} {s : List Char} (hc : (shortEscape? c).isSome) (h : IsText s) :
      IsText ('\\' :: c :: s)
  | unit {a b c d : Char} {s : List Char} (hhex : ∀ x ∈ [a, b, c, d], (hexDigit? x).isSome)
      (h : IsText s) : IsText ('\\' :: 'u' :: a :: b :: c :: d :: s)

/-! ### The two dialects -/

inductive Dialect where
  | strict
  | relaxed
deriving DecidableEq, Repr

namespace Dialect

/-- What may stand wherever space may: space, and in the relaxed dialect closed comments. -/
inductive Gap : Dialect → List Char → Prop where
  | nil {d : Dialect} : Gap d []
  | space {d : Dialect} {c : Char} {s : List Char} (hc : isSpace c = true) (h : Gap d s) :
      Gap d (c :: s)
  | line {body s : List Char} (hbody : '\n' ∉ body) (h : Gap relaxed s) :
      Gap relaxed ('/' :: '/' :: body ++ '\n' :: s)
  | block {body s : List Char} (hbody : ¬ ['*', '/'] <:+: body) (h : Gap relaxed s) :
      Gap relaxed ('/' :: '*' :: body ++ '*' :: '/' :: s)

/-- What may stand at the end of a text: there a line comment need not have its newline. -/
inductive LastGap : Dialect → List Char → Prop where
  | gap {d : Dialect} {s : List Char} (h : Gap d s) : LastGap d s
  | line {s body : List Char} (h : Gap relaxed s) (hbody : '\n' ∉ body) :
      LastGap relaxed (s ++ '/' :: '/' :: body)

/-- What may stand before the closing bracket of an array or object that is not empty. -/
inductive Tail : Dialect → List Char → Prop where
  | nil {d : Dialect} : Tail d []
  | comma {s : List Char} (h : Gap relaxed s) : Tail relaxed (',' :: s)

end Dialect

/-! ### Values -/

/-- What stands between the commas of an array or object. -/
inductive Item where
  | element (t : Tree)
  | member (key : List Char) (t : Tree)

/-- The phrases of JSON: a value, an item, or the items of an array or object that is not empty. -/
inductive Phrase where
  | value (t : Tree)
  | item (i : Item)
  | items (is : List Item)

/-- A text that spells a phrase. -/
inductive Spells (d : Dialect) : Phrase → List Char → Prop where
  | null : Spells d (.value .null) ['n', 'u', 'l', 'l']
  | true : Spells d (.value (.boolean Bool.true)) ['t', 'r', 'u', 'e']
  | false : Spells d (.value (.boolean Bool.false)) ['f', 'a', 'l', 's', 'e']
  | number {s : List Char} (h : IsNumber s) : Spells d (.value (.number s)) s
  | text {s : List Char} (h : IsText s) : Spells d (.value (.text s)) ('"' :: s ++ ['"'])
  | emptyArray {g : List Char} (hg : d.Gap g) : Spells d (.value (.array [])) ('[' :: g ++ [']'])
  | array {ts : List Tree} {s e : List Char} (h : Spells d (.items (ts.map .element)) s)
      (he : d.Tail e) : Spells d (.value (.array ts)) ('[' :: (s ++ e) ++ [']'])
  | emptyObject {g : List Char} (hg : d.Gap g) :
      Spells d (.value (.object [])) ('\x7b' :: g ++ ['\x7d'])
  | object {ms : List (List Char × Tree)} {s e : List Char}
      (h : Spells d (.items (ms.map fun m => .member m.1 m.2)) s) (he : d.Tail e) :
      Spells d (.value (.object ms)) ('\x7b' :: (s ++ e) ++ ['\x7d'])
  | element {t : Tree} {g s g' : List Char} (hg : d.Gap g) (h : Spells d (.value t) s)
      (hg' : d.Gap g') : Spells d (.item (.element t)) (g ++ s ++ g')
  | member {key : List Char} {t : Tree} {g g₁ g₂ s g' : List Char} (hg : d.Gap g)
      (hkey : IsText key) (hg₁ : d.Gap g₁) (hg₂ : d.Gap g₂) (h : Spells d (.value t) s)
      (hg' : d.Gap g') :
      Spells d (.item (.member key t))
        (g ++ ('"' :: key ++ ['"']) ++ g₁ ++ [':'] ++ g₂ ++ s ++ g')
  | last {i : Item} {s : List Char} (h : Spells d (.item i) s) : Spells d (.items [i]) s
  | more {i : Item} {is : List Item} {s r : List Char} (h : Spells d (.item i) s)
      (hr : Spells d (.items is) r) : Spells d (.items (i :: is)) (s ++ ',' :: r)

/-- `text` is a text of the dialect, and says `t`. -/
inductive Writes (d : Dialect) (t : Tree) : List Char → Prop where
  | value {g s g' : List Char} (hg : d.Gap g) (h : Spells d (.value t) s) (hg' : d.LastGap g') :
      Writes d t (g ++ s ++ g')

end Prototypal.Json
