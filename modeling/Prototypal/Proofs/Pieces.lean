import Mathlib.Data.List.TakeWhile
import Prototypal.Settings.Relaxed

/-!
# Prototypal — Proofs — Pieces

The pieces of a relaxed text (`Relaxed.pieces`): comments, string literals, and the characters of
code between them.  A comment or a literal that nothing closes goes on to the end of the text.

`written out comma text` is what a pass writes in all that has come to `text` between two pieces.
It has one equation for each kind of piece (`written_plain` and those after it), and proofs about a
pass use these and not the pass itself.  A comma that waits is known by its byte offset in `out`;
what is left once it is dropped (`Drops`) grows as `out` does.

* `flatMap_text_pieces`: the pieces of a text are all of it.
* `normalize_eq_settled`: a pass leaves out comments but for their newlines, and turns a comma into
  a space just when the next piece, blanks and comments apart, is a closing bracket.  The pass
  decides this looking back at a comma it has written, `settled` by looking ahead.
-/

namespace Prototypal.Relaxed

/-! ### Pieces -/

/-- The text of a string from behind its opening quote up to and with its closing one, and the text
after it. -/
def splitLiteral : List Char → List Char × List Char
  | [] => ([], [])
  | '"' :: s => (['"'], s)
  | '\\' :: c :: s => ('\\' :: c :: (splitLiteral s).1, (splitLiteral s).2)
  | c :: s => (c :: (splitLiteral s).1, (splitLiteral s).2)

/-- The text of a block comment from behind its opening mark up to and with its closing one, and the
text after it. -/
def splitBlock : List Char → List Char × List Char
  | [] => ([], [])
  | '*' :: '/' :: s => (['*', '/'], s)
  | c :: s => (c :: (splitBlock s).1, (splitBlock s).2)

theorem splitLiteral_length_le (s : List Char) : (splitLiteral s).2.length ≤ s.length := by
  fun_induction splitLiteral s <;> grind

theorem splitBlock_length_le (s : List Char) : (splitBlock s).2.length ≤ s.length := by
  fun_induction splitBlock s <;> grind

/-- A piece of a relaxed text: a character of code, a string with its quotes, or a comment with its
marks. -/
inductive Piece where
  | code (c : Char)
  | literal (s : List Char)
  | comment (s : List Char)
deriving DecidableEq, Repr

/-- The pieces of a text.  A line comment ends before its newline. -/
def pieces : List Char → List Piece
  | [] => []
  | '"' :: s => .literal ('"' :: (splitLiteral s).1) :: pieces (splitLiteral s).2
  | '/' :: '/' :: s =>
    .comment ('/' :: '/' :: s.takeWhile (· ≠ '\n')) :: pieces (s.dropWhile (· ≠ '\n'))
  | '/' :: '*' :: s => .comment ('/' :: '*' :: (splitBlock s).1) :: pieces (splitBlock s).2
  | c :: s => .code c :: pieces s
termination_by s => s.length
decreasing_by
  · exact Nat.lt_succ_of_le (splitLiteral_length_le s)
  · have := (List.dropWhile_sublist (p := (· ≠ '\n')) (l := s)).length_le
    simp only [List.length_cons]
    omega
  · have := splitBlock_length_le s
    simp only [List.length_cons]
    omega
  · simp

/-- The text of a piece. -/
def Piece.text : Piece → List Char
  | .code c => [c]
  | .literal s => s
  | .comment s => s

theorem splitLiteral_fst_append_snd (s : List Char) :
    (splitLiteral s).1 ++ (splitLiteral s).2 = s := by
  fun_induction splitLiteral s <;> simp_all

theorem splitBlock_fst_append_snd (s : List Char) : (splitBlock s).1 ++ (splitBlock s).2 = s := by
  fun_induction splitBlock s <;> simp_all

/-- The pieces of a text are all of it, in order. -/
theorem flatMap_text_pieces (text : List Char) : (pieces text).flatMap Piece.text = text := by
  fun_induction pieces text with
  | case1 => rfl
  | case2 s ih => simp [ih, Piece.text, splitLiteral_fst_append_snd]
  | case3 s ih =>
    rw [List.flatMap_cons, ih]
    exact congrArg ('/' :: '/' :: ·) List.takeWhile_append_dropWhile
  | case4 s ih => simp [ih, Piece.text, splitBlock_fst_append_snd]
  | case5 c s _ _ _ ih => simp [ih, Piece.text]

/-- What the text of a string up to its closing quote is made of. -/
theorem splitLiteral_induction {motive : List Char → Prop} (s : List Char) (close : motive ['"'])
    (escape : ∀ c l, motive l → motive ('\\' :: c :: l))
    (plain : ∀ c l, c ≠ '"' → c ≠ '\\' → motive l → motive (c :: l))
    (ended : (splitLiteral s).2 = [] → motive [] ∧ motive ['\\']) : motive (splitLiteral s).1 := by
  fun_induction splitLiteral s with
  | case1 => exact (ended rfl).1
  | case2 s => exact close
  | case3 c s ih => exact escape c _ (ih ended)
  | case4 c s hquote hescape ih =>
    by_cases hc : c = '\\'
    · -- a backslash that ends the text
      match s, hescape with
      | [], _ => exact hc ▸ (ended rfl).2
      | d :: s, h => exact absurd rfl (h d s hc)
    · exact plain c _ hquote hc (ih ended)

theorem splitLiteral_append {s t : List Char} (ht : (splitLiteral s).2 = [] → t = []) :
    splitLiteral ((splitLiteral s).1 ++ t) = ((splitLiteral s).1, t) := by
  refine splitLiteral_induction (motive := fun l => splitLiteral (l ++ t) = (l, t)) s rfl ?_ ?_ ?_
  · intro c l ih
    rw [List.cons_append, List.cons_append, splitLiteral, ih]
  · intro c l hquote hslash ih
    rw [List.cons_append, splitLiteral, ih]
    · exact hquote
    · exact fun _ _ hc => absurd hc hslash
  · intro hend
    rw [ht hend]
    exact ⟨rfl, rfl⟩

/-- Where no mark of a comment begins, a slash is followed by neither of the characters that would
complete one. -/
theorem head?_ne_mark {c : Char} {s : List Char} (hline : ∀ r, c = '/' → s = '/' :: r → False)
    (hblock : ∀ r, c = '/' → s = '*' :: r → False) (hc : c = '/') :
    s.head? ≠ some '/' ∧ s.head? ≠ some '*' := by
  constructor
  · intro hs
    obtain ⟨r, rfl⟩ := List.head?_eq_some_iff.mp hs
    exact hline r hc rfl
  · intro hs
    obtain ⟨r, rfl⟩ := List.head?_eq_some_iff.mp hs
    exact hblock r hc rfl

/-- A character that opens neither a string nor a comment is a piece of its own. -/
theorem pieces_code {c : Char} {s : List Char} (hquote : c ≠ '"')
    (hslash : c = '/' → s.head? ≠ some '/' ∧ s.head? ≠ some '*') :
    pieces (c :: s) = .code c :: pieces s := by
  rw [pieces]
  · exact hquote
  · rintro r rfl rfl
    exact (hslash rfl).1 rfl
  · rintro r rfl rfl
    exact (hslash rfl).2 rfl

/-- The newlines of a text. -/
def newlines (s : List Char) : List Char := s.filter (· = '\n')

theorem newlines_mark {c : Char} (hc : c ≠ '\n') (s : List Char) :
    newlines (c :: s) = newlines s :=
  List.filter_cons_of_neg (by simpa using hc)

theorem mem_newlines {s : List Char} {c : Char} (hc : c ∈ newlines s) : c = '\n' := by
  simpa using (List.mem_filter.mp hc).2

/-! ### What a pass writes -/

/-- What a pass has written in the end that has written `out` before `text`, and is within code. -/
def written (out : List Char) (comma : Option Nat) (text : List Char) : Option (List Char) :=
  (Pass.takeAll { out := .ofList out, comma } text).map (·.out.toList)

theorem written_eq_normalize (text : List Char) : written [] none text = some (normalize text) := by
  obtain ⟨p, hp⟩ := Option.isSome_iff_exists.mp (Pass.isSome_takeAll text)
  have hwritten : written [] none text = some p.out.toList := congrArg (Option.map _) hp
  simp only [hwritten, normalize, hp, Option.get_some]

@[simp] theorem written_nil (out : List Char) (comma : Option Nat) :
    written out comma [] = some out := rfl

/-- Whether a character of code neither is blank nor has a meaning of its own. -/
def isPlain (c : Char) : Bool :=
  !(Text.isBlank c || c = '\x7d' || c = ']' || c = ',' || c = '"')

section

variable {out : List Char} {comma : Option Nat} {c : Char} {s : List Char}

/-- A character that opens no comment is taken as code. -/
theorem written_code (h : c = '/' → s.head? ≠ some '/' ∧ s.head? ≠ some '*') :
    written out comma (c :: s) =
      ((Pass.takeCode { out := .ofList out, comma } c).bind (·.takeAll s)).map (·.out.toList) := by
  have hline : ¬ (c = '/' ∧ s.head? = some '/') := fun hc => (h hc.1).1 hc.2
  have hblock : ¬ (c = '/' ∧ s.head? = some '*') := fun hc => (h hc.1).2 hc.2
  simp [written, Pass.takeAll, Pass.take, hline, hblock]

theorem written_plain (hc : isPlain c = true)
    (h : c = '/' → s.head? ≠ some '/' ∧ s.head? ≠ some '*') :
    written out comma (c :: s) = written (out ++ [c]) none s := by
  rw [written_code h]
  simp_all [isPlain, Pass.takeCode, Pass.write, written]

theorem written_blank (hc : Text.isBlank c = true) :
    written out comma (c :: s) = written (out ++ [c]) comma s := by
  have hne : ∀ d, Text.isBlank d = false → c ≠ d := fun d hd e => by simp [e, hd] at hc
  rw [written_code fun e => absurd e (hne '/' (by decide))]
  simp [Pass.takeCode, Pass.write, written, hc, hne '\x7d' (by decide), hne ']' (by decide),
    hne ',' (by decide), hne '"' (by decide)]

theorem written_comma :
    written out comma (',' :: s) = written (out ++ [',']) (some (Text.byteSize out)) s := by
  rw [written_code fun e => absurd e (by decide)]
  simp [Pass.takeCode, Pass.write, written]

/-- `left` is left of what is written once the comma that waits, if there is one, is dropped. -/
inductive Drops : Option Nat → List Char → List Char → Prop where
  | none (out : List Char) : Drops none out out
  | comma (before behind : List Char) :
      Drops (some (Text.byteSize before)) (before ++ ',' :: behind) (before ++ ' ' :: behind)

/-- What is written behind a comma that waits is not touched when it is dropped. -/
theorem Drops.append {left : List Char} (h : Drops comma out left) (s : List Char) :
    Drops comma (out ++ s) (left ++ s) := by
  cases h with
  | none => exact .none _
  | comma before behind => simpa using Drops.comma before (behind ++ s)

theorem Drops.dropComma_eq {left : List Char} (h : Drops comma out left) :
    Pass.dropComma { out := .ofList out, comma } = some { out := .ofList left } := by
  cases h with
  | none => rfl
  | comma before behind => exact Pass.dropComma_eq rfl rfl

theorem written_closing {left : List Char} (hc : c = '\x7d' ∨ c = ']')
    (h : Drops comma out left) : written out comma (c :: s) = written (left ++ [c]) none s := by
  rw [written_code fun e => by rcases hc with rfl | rfl <;> exact absurd e (by decide)]
  simp [Pass.takeCode, h.dropComma_eq, Pass.write, written, hc]

/-- Within a string all is written, up to the closing quote. -/
theorem takeAll_string (s out : List Char) :
    (Pass.takeAll { mode := .string, out := .ofList out } s).map (·.out.toList) =
      written (out ++ (splitLiteral s).1) none (splitLiteral s).2 := by
  fun_induction splitLiteral s generalizing out with
  | case1 => simp [Pass.takeAll]
  | case2 s => simp [Pass.takeAll, Pass.take, Pass.takeString, Pass.write, written]
  | case3 c s ih =>
    simp only [Pass.takeAll, Pass.take, Pass.takeString, Pass.write, Bool.false_eq_true, if_false,
      if_true, Option.bind_some, Text.Buffer.push_ofList]
    rw [ih, List.append_assoc, List.append_assoc]
    rfl
  | case4 c s hquote hescape ih =>
    simp only [Pass.takeAll, Pass.take, Pass.takeString, Pass.write, Bool.false_eq_true, if_false,
      Option.bind_some, Text.Buffer.push_ofList, if_neg hquote]
    by_cases hc : c = '\\'
    · -- a backslash that ends the text
      cases s with
      | nil => simp [hc, Pass.takeAll, splitLiteral]
      | cons d s => exact absurd rfl (hescape d s hc)
    · rw [if_neg hc, ih, List.append_assoc]
      rfl

theorem written_literal : written out comma ('"' :: s) =
    written (out ++ '"' :: (splitLiteral s).1) none (splitLiteral s).2 := by
  rw [written_code fun e => absurd e (by decide)]
  simpa [Pass.takeCode, Pass.write] using takeAll_string s (out ++ ['"'])

/-- Within a line comment nothing is written, up to the newline. -/
theorem takeAll_line (s : List Char) (out : List Char) (comma : Option Nat) :
    (Pass.takeAll { mode := .lineComment, out := .ofList out, comma } s).map (·.out.toList) =
      written out comma (s.dropWhile (· ≠ '\n')) := by
  induction s with
  | nil => simp [Pass.takeAll]
  | cons c s ih =>
    by_cases hc : c = '\n'
    · subst hc
      rw [List.dropWhile_cons_of_neg (by simp), written_blank (by decide)]
      simp [Pass.takeAll, Pass.take, Pass.write, written]
    · rw [List.dropWhile_cons_of_pos (by simpa using hc), ← ih]
      simp [Pass.takeAll, Pass.take, hc]

theorem written_line :
    written out comma ('/' :: '/' :: s) = written out comma (s.dropWhile (· ≠ '\n')) := by
  rw [← takeAll_line]
  simp [written, Pass.takeAll, Pass.take, Pass.takeMark]

/-- Within a block comment newlines are written, up to the closing mark. -/
theorem takeAll_block (s out : List Char) (comma : Option Nat) :
    (Pass.takeAll { mode := .blockComment, out := .ofList out, comma } s).map (·.out.toList) =
      written (out ++ newlines (splitBlock s).1) comma (splitBlock s).2 := by
  fun_induction splitBlock s generalizing out with
  | case1 => simp [Pass.takeAll, newlines]
  | case2 s => simp [Pass.takeAll, Pass.take, Pass.takeMark, written, newlines]
  | case3 c s hmark ih =>
    have hopen : ¬ (c = '*' ∧ s.head? = some '/') := by
      rintro ⟨hc, hs⟩
      obtain ⟨r, rfl⟩ := List.head?_eq_some_iff.mp hs
      exact hmark r hc rfl
    by_cases hc : c = '\n'
    · simp only [Pass.takeAll, Pass.take, Pass.write, Bool.false_eq_true, if_false, if_neg hopen,
        if_pos hc, Option.bind_some, Text.Buffer.push_ofList]
      rw [ih, List.append_assoc]
      simp [newlines, hc]
    · simp only [Pass.takeAll, Pass.take, Bool.false_eq_true, if_false, if_neg hopen, if_neg hc,
        Option.bind_some]
      rw [ih]
      simp [newlines, hc]

theorem written_block : written out comma ('/' :: '*' :: s) =
    written (out ++ newlines (splitBlock s).1) comma (splitBlock s).2 := by
  rw [← takeAll_block]
  simp [written, Pass.takeAll, Pass.take, Pass.takeMark]

end

/-! ### Looking ahead -/

/-- Whether the next piece, blanks and comments apart, is a closing bracket. -/
def closesNext : List Piece → Bool
  | .code c :: ps => if Text.isBlank c then closesNext ps else c = '\x7d' || c = ']'
  | .comment _ :: ps => closesNext ps
  | _ => false

/-- Pieces as JSON: of comments only the newlines, and spaces for the commas before a closing
bracket. -/
def settled : List Piece → List Char
  | [] => []
  | .code c :: ps => (if c = ',' ∧ closesNext ps then ' ' else c) :: settled ps
  | .literal s :: ps => s ++ settled ps
  | .comment s :: ps => newlines s ++ settled ps

/-- A comma that waits is dropped just when a closing bracket comes next; the rest is settled by
looking ahead. -/
theorem written_eq_settled (text : List Char) {out left : List Char} {comma : Option Nat}
    (h : Drops comma out left) :
    written out comma text =
      some ((if closesNext (pieces text) then left else out) ++ settled (pieces text)) := by
  fun_induction pieces text generalizing out left comma with
  | case1 => simp [closesNext, settled]
  | case2 s ih =>
    rw [written_literal, ih (.none _)]
    simp [closesNext, settled]
  | case3 s ih =>
    rw [written_line, ih h]
    have hnone : newlines (s.takeWhile (· ≠ '\n')) = [] :=
      List.filter_eq_nil_iff.mpr fun c hc => by simpa using List.mem_takeWhile_imp hc
    rw [closesNext, settled, newlines_mark (by decide), newlines_mark (by decide), hnone,
      List.nil_append]
  | case4 s ih =>
    rw [written_block, ih (h.append _), closesNext, settled, newlines_mark (by decide),
      newlines_mark (by decide)]
    split <;> rw [List.append_assoc]
  | case5 c s hquote hline hblock ih =>
    have hcode : c = '/' → s.head? ≠ some '/' ∧ s.head? ≠ some '*' := head?_ne_mark hline hblock
    rw [closesNext, settled]
    by_cases hblank : Text.isBlank c = true
    · have hne : c ≠ ',' := fun e => by simp [e, Text.isBlank] at hblank
      rw [written_blank hblank, ih (h.append [c]), if_pos hblank]
      split <;> simp [hne]
    rw [if_neg hblank]
    by_cases hclosing : c = '\x7d' ∨ c = ']'
    · have hne : c ≠ ',' := fun e => by simp [e] at hclosing
      rw [written_closing hclosing h, ih (.none _)]
      simp [hclosing, hne]
    by_cases hcomma : c = ','
    · subst hcomma
      rw [written_comma, ih (.comma out [])]
      by_cases hnext : closesNext (pieces s) = true <;> simp [hnext]
    · have hplain : isPlain c = true := by simp_all [isPlain]
      rw [written_plain hplain hcode, ih (.none _)]
      simp_all

theorem normalize_eq_settled (text : List Char) : normalize text = settled (pieces text) := by
  have h := written_eq_normalize text
  rw [written_eq_settled text (.none []), Option.some.injEq] at h
  simpa using h.symm

end Prototypal.Relaxed
