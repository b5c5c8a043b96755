import Prototypal.Text.Blank
import Prototypal.Text.Buffer

/-!
# Prototypal — Settings — Relaxed

Relaxed JSON: JSON with comments and trailing commas, as people write settings in.
`Relaxed.normalize` makes it JSON in one pass.  A comment, from two slashes to the end of the line
or between a slash with a star and a star with a slash, is left out but for its newlines, so that
what stands after it keeps its line.  A comma becomes a space if the next thing after it, white
space and comments apart, is a closing bracket.  Nothing within a string is changed.

By then the comma has been written, and is found again by the byte offset that was kept for it.
Replacing it fails unless a character of one byte stands at that offset, and the pass would fail
with it.  No pass does: the offset that is kept is always that of a comma (`Pass.Sound`,
`Pass.exists_takeAll`).
-/

namespace Prototypal.Relaxed

/-- What the reader is within. -/
inductive Mode where
  | code
  | string
  | escape
  | lineComment
  | blockComment
deriving DecidableEq, Repr

/-- The state of a pass: what it is within, whether the next character belongs to a comment mark
already taken, what it has written, and the byte offset there of a comma that only white space and
comments have followed so far. -/
structure Pass where
  mode : Mode := .code
  skips : Bool := false
  out : Text.Buffer := {}
  comma : Option Nat := none
deriving DecidableEq, Repr

namespace Pass

def write (p : Pass) (c : Char) : Pass := { p with out := p.out.push c }

/-- Turns the comma that still waits into a space. -/
def dropComma : Pass → Option Pass
  | ⟨mode, skips, out, some i⟩ => (out.replaceByte? i ' ').map (⟨mode, skips, ·, none⟩)
  | p => some p

/-- Takes a character of code that opens no comment. -/
def takeCode (p : Pass) (c : Char) : Option Pass :=
  if c = '\x7d' || c = ']' then p.dropComma.map (·.write c)
  else if c = ',' then
    let offset := p.out.size
    some { p.write c with comma := some offset }
  else if c = '"' then some { p.write c with comma := none, mode := .string }
  else if Text.isBlank c then some (p.write c)
  else some { p.write c with comma := none }

/-- Takes a character within a string. -/
def takeString (p : Pass) (c : Char) : Pass :=
  { p.write c with mode := if c = '\\' then .escape else if c = '"' then .code else .string }

/-- Takes a mark of two characters, the second of which is still to come. -/
def takeMark (p : Pass) (mode : Mode) : Pass := { p with mode, skips := true }

/-- Takes a character, given the one after it. -/
def take (p : Pass) (c : Char) (next : Option Char) : Option Pass :=
  if p.skips then some { p with skips := false }
  else
    match p.mode with
    | .code =>
      if c = '/' ∧ next = some '/' then some (p.takeMark .lineComment)
      else if c = '/' ∧ next = some '*' then some (p.takeMark .blockComment)
      else p.takeCode c
    | .string => some (p.takeString c)
    | .escape => some { p.write c with mode := .string }
    | .lineComment => some (if c = '\n' then { p.write c with mode := .code } else p)
    | .blockComment =>
      if c = '*' ∧ next = some '/' then some (p.takeMark .code)
      else some (if c = '\n' then p.write c else p)

/-- Takes a text. -/
def takeAll (p : Pass) : List Char → Option Pass
  | [] => some p
  | c :: cs => (p.take c cs.head?).bind (·.takeAll cs)

/-! ### No pass fails -/

/-- The offset that is kept is that of a comma in what is written. -/
def Sound (p : Pass) : Prop :=
  ∀ i, p.comma = some i →
    ∃ before behind, p.out.toList = before ++ ',' :: behind ∧ Text.byteSize before = i

theorem sound_of_none {p : Pass} (h : p.comma = none) : p.Sound := by
  intro i hi
  rw [h] at hi
  cases hi

theorem Sound.of_eq {p q : Pass} (h : p.Sound) (hout : q.out = p.out) (hcomma : q.comma = p.comma) :
    q.Sound := by
  intro i hi
  rw [hout]
  exact h i (hcomma ▸ hi)

/-- What is written behind a comma leaves it where it is. -/
theorem Sound.of_push {p q : Pass} (h : p.Sound) {c : Char} (hout : q.out = p.out.push c)
    (hcomma : q.comma = p.comma) : q.Sound := by
  intro i hi
  obtain ⟨before, behind, hp, hsize⟩ := h i (hcomma ▸ hi)
  refine ⟨before, behind ++ [c], ?_, hsize⟩
  rw [hout, Text.Buffer.toList_push, hp, List.append_assoc, List.cons_append]

/-- A comma written last is found at the size before it. -/
theorem sound_of_comma {p q : Pass} (hout : q.out = p.out.push ',')
    (hcomma : q.comma = some p.out.size) : q.Sound := by
  intro i hi
  rw [hcomma, Option.some.injEq] at hi
  subst hi
  exact ⟨p.out.toList, [], by rw [hout, Text.Buffer.toList_push], p.out.size_eq.symm⟩

theorem dropComma_of_none {p : Pass} (h : p.comma = none) : p.dropComma = some p := by
  obtain ⟨mode, skips, out, comma⟩ := p
  cases h
  rfl

/-- **A comma that waits can be dropped**, and nothing else changes. -/
theorem dropComma_eq {p : Pass} {before behind : List Char}
    (hout : p.out.toList = before ++ ',' :: behind) (hcomma : p.comma = some (Text.byteSize before)) :
    p.dropComma = some { p with out := .ofList (before ++ ' ' :: behind), comma := none } := by
  obtain ⟨mode, skips, out, comma⟩ := p
  obtain rfl : comma = some (Text.byteSize before) := hcomma
  have hreplaced : out.replaceByte? (Text.byteSize before) ' ' =
      some (.ofList (before ++ ' ' :: behind)) :=
    Text.Buffer.replaceByte?_eq_some_iff.mpr ⟨before, ',', behind, hout, rfl, rfl, rfl⟩
  rw [dropComma, hreplaced, Option.map_some]

theorem exists_takeCode {p : Pass} (h : p.Sound) (c : Char) :
    ∃ q, p.takeCode c = some q ∧ q.Sound := by
  unfold takeCode
  split
  · cases hp : p.comma with
    | none =>
      rw [dropComma_of_none hp]
      exact ⟨_, rfl, sound_of_none hp⟩
    | some i =>
      obtain ⟨before, behind, hout, rfl⟩ := h i hp
      rw [dropComma_eq hout hp]
      exact ⟨_, rfl, sound_of_none rfl⟩
  split
  · next hc => exact ⟨_, rfl, sound_of_comma (hc ▸ rfl) rfl⟩
  split
  · exact ⟨_, rfl, sound_of_none rfl⟩
  split
  · exact ⟨_, rfl, h.of_push rfl rfl⟩
  · exact ⟨_, rfl, sound_of_none rfl⟩

/-- **One character further**, the pass has not failed, and the offset it keeps is still that of a
comma. -/
theorem exists_take {p : Pass} (h : p.Sound) (c : Char) (next : Option Char) :
    ∃ q, p.take c next = some q ∧ q.Sound := by
  unfold take
  split
  · exact ⟨_, rfl, h.of_eq rfl rfl⟩
  split
  · split
    · exact ⟨_, rfl, h.of_eq rfl rfl⟩
    split
    · exact ⟨_, rfl, h.of_eq rfl rfl⟩
    · exact exists_takeCode h c
  · exact ⟨_, rfl, h.of_push rfl rfl⟩
  · exact ⟨_, rfl, h.of_push rfl rfl⟩
  · refine ⟨_, rfl, ?_⟩
    split
    · exact h.of_push rfl rfl
    · exact h
  · split
    · exact ⟨_, rfl, h.of_eq rfl rfl⟩
    refine ⟨_, rfl, ?_⟩
    split
    · exact h.of_push rfl rfl
    · exact h

theorem exists_takeAll {p : Pass} (h : p.Sound) (s : List Char) :
    ∃ q, p.takeAll s = some q ∧ q.Sound := by
  induction s generalizing p with
  | nil => exact ⟨p, rfl, h⟩
  | cons c s ih =>
    obtain ⟨q, hq, hsound⟩ := exists_take h c s.head?
    rw [takeAll, hq]
    exact ih hsound

theorem isSome_takeAll (text : List Char) : (({} : Pass).takeAll text).isSome = true := by
  obtain ⟨q, hq, -⟩ := exists_takeAll (sound_of_none (p := {}) rfl) text
  rw [hq, Option.isSome_some]

end Pass

/-- Relaxed JSON as JSON. -/
def normalize (text : List Char) : List Char :=
  ((({} : Pass).takeAll text).get (Pass.isSome_takeAll text)).out.toList

end Prototypal.Relaxed
