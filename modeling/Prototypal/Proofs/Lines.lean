import Mathlib.Data.List.Forall2
import Prototypal.Proofs.Pieces

/-!
# Prototypal — Proofs — Lines

What stands where after normalizing, so that an error in a normalized text is met on the line of the
text it comes from.

A character of a text is kept, becomes a space, or is deleted (`Fate`); `fates text` says which of
these, with a list of edits for each piece.  No edit touches a newline, so what is left of the
characters before a place has as many newlines as they had (`count_outcome`), and every character
that survives keeps its line.

The comma that a pass still has to decide on is known by the byte offset that was kept when it was
written.  That there is a comma at this offset outlasts each character that is taken
(`Pass.exists_take`), so it holds at every moment of a pass (`Pass.exists_after`): to drop the comma
never fails, and replaces its one byte without moving any other (`bytes_dropped`).

* `normalize_keeps_lines`: all this for every text, closed or not.
-/

namespace Prototypal.Relaxed

/-! ### Edits -/

/-- What becomes of a character. -/
inductive Fate where
  | kept
  | blanked
  | deleted
deriving DecidableEq, Repr

/-- A character and what becomes of it. -/
structure Edit where
  char : Char
  fate : Fate
deriving DecidableEq, Repr

/-- What stands for the character in the end. -/
def Edit.left? (e : Edit) : Option Char :=
  match e.fate with
  | .kept => some e.char
  | .blanked => some ' '
  | .deleted => none

/-- The text before the edits. -/
def source (edits : List Edit) : List Char := edits.map Edit.char

/-- The text after the edits. -/
def outcome (edits : List Edit) : List Char := edits.filterMap Edit.left?

/-- The place, after the edits, of what stood at place `i`. -/
def landing (edits : List Edit) (i : Nat) : Nat := (outcome (edits.take i)).length

/-- The line of a place in a text; the first is line 1. -/
def line (text : List Char) (i : Nat) : Nat := (text.take i).count '\n' + 1

/-- The edits are of the characters of the piece, and such as it may have: only a comment loses
characters, and not its newlines, and only a comma of code becomes a space. -/
structure Piece.Allows (piece : Piece) (edits : List Edit) : Prop where
  source : source edits = piece.text
  deleted : ∀ e ∈ edits, e.fate = .deleted → (∃ s, piece = .comment s) ∧ e.char ≠ '\n'
  blanked : ∀ e ∈ edits, e.fate = .blanked → piece = .code ','

/-- The edits of a piece, given whether a closing bracket comes next. -/
def Piece.edits (closing : Bool) : Piece → List Edit
  | .code c => [⟨c, if c = ',' ∧ closing then .blanked else .kept⟩]
  | .literal s => s.map (⟨·, .kept⟩)
  | .comment s => s.map fun c => ⟨c, if c = '\n' then .kept else .deleted⟩

/-- The edits of pieces, piece by piece. -/
def edits : List Piece → List (List Edit)
  | [] => []
  | piece :: ps => piece.edits (closesNext ps) :: edits ps

/-- What becomes of each character of a text. -/
def fates (text : List Char) : List Edit := (edits (pieces text)).flatten

theorem source_append (es fs : List Edit) : source (es ++ fs) = source es ++ source fs :=
  List.map_append

theorem outcome_append (es fs : List Edit) : outcome (es ++ fs) = outcome es ++ outcome fs :=
  List.filterMap_append

/-! ### The edits of a text -/

theorem allows_edits (closing : Bool) (piece : Piece) : piece.Allows (piece.edits closing) := by
  cases piece with
  | code c =>
    simp only [Piece.edits]
    split
    · next hc => exact ⟨rfl, by simp, by simp [hc.1]⟩
    · exact ⟨rfl, by simp, by simp⟩
  | literal s => exact ⟨by simp [source, Piece.edits, Piece.text, Function.comp_def],
      by simp [Piece.edits], by simp [Piece.edits]⟩
  | comment s =>
    refine ⟨by simp [source, Piece.edits, Piece.text, Function.comp_def], ?_, ?_⟩
    · intro e he hf
      obtain ⟨c, -, rfl⟩ := List.mem_map.mp he
      by_cases hc : c = '\n'
      · simp [hc] at hf
      · exact ⟨⟨s, rfl⟩, hc⟩
    · intro e he hf
      obtain ⟨c, -, rfl⟩ := List.mem_map.mp he
      by_cases hc : c = '\n' <;> simp [hc] at hf

theorem forall₂_allows_edits (ps : List Piece) : List.Forall₂ Piece.Allows ps (edits ps) := by
  induction ps with
  | nil => exact .nil
  | cons piece ps ih => exact .cons (allows_edits _ piece) ih

theorem source_fates (text : List Char) : source (fates text) = text := by
  have hpieces : ∀ ps, source (edits ps).flatten = ps.flatMap Piece.text := by
    intro ps
    induction ps with
    | nil => rfl
    | cons piece ps ih =>
      rw [edits, List.flatten_cons, source_append, (allows_edits _ piece).source, ih,
        List.flatMap_cons]
  rw [fates, hpieces, flatMap_text_pieces]

/-- What the edits of a piece leave. -/
theorem outcome_edits (closing : Bool) (piece : Piece) : outcome (piece.edits closing) =
    match piece with
    | .code c => [if c = ',' ∧ closing then ' ' else c]
    | .literal s => s
    | .comment s => newlines s := by
  cases piece with
  | code c =>
    simp only [Piece.edits]
    split <;> rfl
  | literal s => simp [outcome, Piece.edits, Edit.left?, List.filterMap_map, Function.comp_def]
  | comment s =>
    induction s with
    | nil => rfl
    | cons c s ih =>
      simp only [Piece.edits, outcome, newlines] at ih ⊢
      by_cases hc : c = '\n' <;> simp [hc, List.filterMap_cons, Edit.left?, ih]

theorem outcome_fates (text : List Char) : outcome (fates text) = normalize text := by
  have hpieces : ∀ ps, outcome (edits ps).flatten = settled ps := by
    intro ps
    induction ps with
    | nil => rfl
    | cons piece ps ih =>
      rw [edits, List.flatten_cons, outcome_append, outcome_edits, ih]
      cases piece <;> rfl
  rw [fates, hpieces, normalize_eq_settled]

/-! ### Lines -/

/-- No edit of the list touches a newline. -/
def SparesNewlines (es : List Edit) : Prop := ∀ e ∈ es, e.char = '\n' → e.fate = .kept

theorem Piece.Allows.sparesNewlines {piece : Piece} {es : List Edit} (h : piece.Allows es) :
    SparesNewlines es := by
  intro e he hc
  cases hf : e.fate with
  | kept => rfl
  | deleted => exact absurd hc (h.deleted e he hf).2
  | blanked =>
    -- the one character of the piece is a comma
    have hmem : e.char ∈ Relaxed.source es := List.mem_map_of_mem he
    rw [h.source, h.blanked e he hf, hc] at hmem
    simp [Piece.text] at hmem

theorem sparesNewlines_fates (text : List Char) : SparesNewlines (fates text) := by
  have hpieces : ∀ ps, SparesNewlines (edits ps).flatten := by
    intro ps
    induction ps with
    | nil => simp [SparesNewlines, edits]
    | cons piece ps ih =>
      exact List.forall_mem_append.mpr ⟨(allows_edits _ piece).sparesNewlines, ih⟩
  exact hpieces (pieces text)

/-- **Edits that spare newlines leave as many as there were.** -/
theorem count_outcome {es : List Edit} (h : SparesNewlines es) :
    (outcome es).count '\n' = (source es).count '\n' := by
  induction es with
  | nil => rfl
  | cons e es ih =>
    obtain ⟨he, hes⟩ := List.forall_mem_cons.mp h
    have hrest := ih hes
    simp only [outcome, source, List.filterMap_cons, List.map_cons] at hrest ⊢
    obtain ⟨c, fate⟩ := e
    cases fate with
    | kept => simp [Edit.left?, List.count_cons, hrest]
    | blanked | deleted =>
      have hc : c ≠ '\n' := fun hc => by simp [hc] at he
      simp [Edit.left?, hrest, hc]

/-- What survives stands where the edits before it leave it, on the line where it stood. -/
theorem outcome_at_landing {es : List Edit} (h : SparesNewlines es) {i : Nat} {e : Edit} {c : Char}
    (he : es[i]? = some e) (hc : e.left? = some c) :
    (outcome es)[landing es i]? = some c ∧ line (outcome es) (landing es i) = line (source es) i := by
  obtain ⟨hi, rfl⟩ := List.getElem?_eq_some_iff.mp he
  have hsplit : outcome es = outcome (es.take i) ++ c :: outcome (es.drop (i + 1)) := by
    calc outcome es = outcome (es.take i ++ es[i] :: es.drop (i + 1)) := by
          rw [← List.drop_eq_getElem_cons hi, List.take_append_drop]
      _ = outcome (es.take i) ++ c :: outcome (es.drop (i + 1)) := by
          rw [outcome_append]
          exact congrArg _ (List.filterMap_cons_some hc)
  constructor
  · rw [hsplit, landing]
    simp
  · have hbefore : SparesNewlines (es.take i) := fun e he => h e (List.mem_of_mem_take he)
    rw [line, line, hsplit, landing, List.take_left, count_outcome hbefore]
    simp [source, List.map_take]

/-! ### The comma that waits -/

namespace Pass

/-- The pass after the characters `s`, where `rest` comes behind them. -/
def after (p : Pass) : List Char → List Char → Option Pass
  | [], _ => some p
  | c :: s, rest => (p.take c (s ++ rest).head?).bind (·.after s rest)

theorem takeAll_append (p : Pass) (s rest : List Char) :
    p.takeAll (s ++ rest) = (p.after s rest).bind (·.takeAll rest) := by
  induction s generalizing p with
  | nil => rfl
  | cons c s ih =>
    rw [List.cons_append, takeAll, after, Option.bind_assoc]
    exact congrArg _ (funext ih)

/-- **At every moment** the pass has not failed, and the offset it keeps is that of a comma. -/
theorem exists_after {p : Pass} (h : p.Sound) (s rest : List Char) :
    ∃ q, p.after s rest = some q ∧ q.Sound := by
  induction s generalizing p with
  | nil => exact ⟨p, rfl, h⟩
  | cons c s ih =>
    obtain ⟨q, hq, hsound⟩ := exists_take h c (s ++ rest).head?
    rw [after, hq]
    exact ih hsound

end Pass

/-! ### Bytes -/

/-- A text in UTF-8. -/
def bytes (s : List Char) : List UInt8 := s.flatMap String.utf8EncodeChar

theorem length_bytes (s : List Char) : (bytes s).length = Text.byteSize s := by
  induction s with
  | nil => rfl
  | cons c s ih =>
    rw [bytes, List.flatMap_cons, List.length_append, String.length_utf8EncodeChar]
    exact congrArg (c.utf8Size + ·) ih

/-- A comma is one byte, and a space in its place another. -/
theorem bytes_dropped (before behind : List Char) :
    (bytes (before ++ ',' :: behind))[(bytes before).length]? = some ','.toUInt8 ∧
      bytes (before ++ ' ' :: behind) =
        (bytes (before ++ ',' :: behind)).set (bytes before).length ' '.toUInt8 := by
  have hsplit : ∀ c, bytes (before ++ c :: behind) =
      bytes before ++ (String.utf8EncodeChar c ++ bytes behind) := fun c => by
    rw [bytes, List.flatMap_append, List.flatMap_cons]
    rfl
  have hcomma : String.utf8EncodeChar ',' = [','.toUInt8] := rfl
  have hspace : String.utf8EncodeChar ' ' = [' '.toUInt8] := rfl
  simp [hsplit, hcomma, hspace]

/-- **Normalizing keeps lines.**  Every character of a text is kept, or becomes a space, which only
commas of code do, or is deleted, which only the characters of comments are and no newline is; and
what is left is the text normalized.  So there are as many newlines as before, and every character
that survives stands on the line where it stood.  The pass is never stuck: at every moment, at the
byte offset kept for a comma there is one in what is written, and it can be dropped, which replaces
that byte by a space and nothing else. -/
theorem normalize_keeps_lines (text : List Char) :
    List.Forall₂ Piece.Allows (pieces text) (edits (pieces text)) ∧
    source (fates text) = text ∧ outcome (fates text) = normalize text ∧
    (normalize text).count '\n' = text.count '\n' ∧
    (∀ i e c, (fates text)[i]? = some e → e.left? = some c →
      text[i]? = some e.char ∧ (normalize text)[landing (fates text) i]? = some c ∧
        line (normalize text) (landing (fates text) i) = line text i) ∧
    (∀ s rest, s ++ rest = text → ∃ p, ({} : Pass).after s rest = some p ∧
      (p.takeAll rest).map (·.out.toList) = some (normalize text) ∧
      ∀ i, p.comma = some i → ∃ before behind,
        p.out.toList = before ++ ',' :: behind ∧ (bytes before).length = i ∧
        (bytes p.out.toList)[i]? = some ','.toUInt8 ∧
        p.dropComma = some { p with out := .ofList (before ++ ' ' :: behind), comma := none } ∧
        bytes (before ++ ' ' :: behind) = (bytes p.out.toList).set i ' '.toUInt8) := by
  have hspares := sparesNewlines_fates text
  refine ⟨forall₂_allows_edits _, source_fates text, outcome_fates text, ?_, ?_, ?_⟩
  · rw [← outcome_fates, count_outcome hspares, source_fates]
  · intro i e c he hc
    have hlanding := outcome_at_landing hspares he hc
    rw [outcome_fates, source_fates] at hlanding
    refine ⟨?_, hlanding⟩
    rw [← source_fates text, source, List.getElem?_map, he, Option.map_some]
  · rintro s rest rfl
    obtain ⟨p, hp, hsound⟩ := Pass.exists_after (Pass.sound_of_none (p := {}) rfl) s rest
    refine ⟨p, hp, ?_, fun i hi => ?_⟩
    · have hall : ({} : Pass).takeAll (s ++ rest) = p.takeAll rest := by
        rw [Pass.takeAll_append, hp, Option.bind_some]
      rw [← hall]
      exact written_eq_normalize (s ++ rest)
    · obtain ⟨before, behind, hout, rfl⟩ := hsound i hi
      obtain ⟨hcomma, hset⟩ := bytes_dropped before behind
      rw [length_bytes, ← hout] at hcomma hset
      exact ⟨before, behind, hout, length_bytes before, hcomma, Pass.dropComma_eq hout hi, hset⟩

/-- A comma behind a character of two bytes, then a comment of two lines and a closing bracket. -/
def commaAbroad : List Char := ['é', ',', '/', '*', '\n', '*', '/', ']']

/-- The offset kept is 2, as it counts bytes. -/
theorem normalize_keeps_lines_commaAbroad :
    normalize commaAbroad = ['é', ' ', '\n', ']'] ∧
    (fates commaAbroad)[7]? = some ⟨']', .kept⟩ ∧ landing (fates commaAbroad) 7 = 3 ∧
    (normalize commaAbroad)[3]? = some ']' ∧
    line (normalize commaAbroad) 3 = line commaAbroad 7 ∧
    ∃ p, ({} : Pass).after (commaAbroad.take 7) [']'] = some p ∧
      p.out.toList = ['é', ',', '\n'] ∧ p.comma = some 2 ∧
      (bytes ['é', ',', '\n'])[2]? = some ','.toUInt8 ∧
      p.dropComma.map (·.out.toList) = some ['é', ' ', '\n'] := by
  obtain ⟨-, -, -, -, hplace, hpass⟩ := normalize_keeps_lines commaAbroad
  have hfate : (fates commaAbroad)[7]? = some ⟨']', .kept⟩ := by decide +kernel
  have hlanding : landing (fates commaAbroad) 7 = 3 := by decide +kernel
  obtain ⟨-, hleft, hline⟩ := hplace 7 _ ']' hfate rfl
  rw [hlanding] at hleft hline
  have hafter : ({} : Pass).after (commaAbroad.take 7) [']'] =
      some { out := .ofList ['é', ',', '\n'], comma := some 2 } := by decide +kernel
  obtain ⟨p, hp, -, hcomma⟩ := hpass (commaAbroad.take 7) [']'] rfl
  obtain rfl := Option.some.inj (hafter.symm.trans hp)
  obtain ⟨_, _, -, -, hbyte, -, -⟩ := hcomma 2 rfl
  exact ⟨by decide +kernel, hfate, hlanding, hleft, hline, _, hafter, rfl, rfl, hbyte,
    by decide +kernel⟩

end Prototypal.Relaxed
