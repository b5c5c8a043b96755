import Prototypal.Proofs.Pieces

/-!
# Prototypal — Proofs — Stripping

Normalizing a relaxed text in two passes, each simpler than the one that does it.  The first takes
the comments out and leaves their newlines (`stripComments`).  The second knows of strings only, and
replaces each comma before a closing bracket by a space (`dropTrailing`).

Where the one pass looks back at a comma over blanks and comments, the second of the two looks ahead
over blanks, the comments being gone.  That they do the same needs that no comment hides a bracket
and that a text without its comments has the strings it had (`dropTrailing_stripComments`).  It also
needs that nothing that stood apart is a comment once it stands together.  Indeed a slash of code is
never followed by a comment, for with the slash that opens the comment it would open one itself; so
taking comments out leaves no mark of one (`hasMark_stripComments`).

* `normalize_eq_two_passes`: the one pass is the two, and leaves no mark of a comment.
-/

namespace Prototypal.Relaxed

/-! ### The two passes -/

/-- What is left of a piece without comments: of a comment its newlines. -/
def Piece.stripped : Piece → List Char
  | .code c => [c]
  | .literal s => s
  | .comment s => newlines s

/-- A text without its comments, but with their newlines. -/
def stripComments (text : List Char) : List Char := (pieces text).flatMap Piece.stripped

/-- Whether the first character that is not blank is a closing bracket. -/
def closes : List Char → Bool
  | [] => false
  | c :: s => if Text.isBlank c then closes s else c = '\x7d' || c = ']'

/-- A text with a space for each comma outside strings that only blanks separate from a closing
bracket. -/
def dropTrailing : List Char → List Char
  | [] => []
  | '"' :: s => '"' :: (splitLiteral s).1 ++ dropTrailing (splitLiteral s).2
  | c :: s => (if c = ',' ∧ closes s then ' ' else c) :: dropTrailing s
termination_by s => s.length
decreasing_by
  · exact Nat.lt_succ_of_le (splitLiteral_length_le s)
  · simp

/-- Whether the mark that opens a comment stands somewhere outside strings. -/
def hasMark : List Char → Bool
  | [] => false
  | '"' :: s => hasMark (splitLiteral s).2
  | c :: s => (c = '/' && (s.head? = some '/' || s.head? = some '*')) || hasMark s
termination_by s => s.length
decreasing_by
  · exact Nat.lt_succ_of_le (splitLiteral_length_le s)
  · simp

/-! ### One character further -/

theorem dropTrailing_code {c : Char} (hc : c ≠ '"') (s : List Char) :
    dropTrailing (c :: s) = (if c = ',' ∧ closes s then ' ' else c) :: dropTrailing s := by
  rw [dropTrailing]
  exact hc

theorem hasMark_code {c : Char} (hc : c ≠ '"') (s : List Char) :
    hasMark (c :: s) =
      ((c = '/' && (s.head? = some '/' || s.head? = some '*')) || hasMark s) := by
  rw [hasMark]
  exact hc

/-- A string that is closed, or goes on to the end of the text, is passed over whatever follows. -/
theorem dropTrailing_literal {s t : List Char} (ht : (splitLiteral s).2 = [] → t = []) :
    dropTrailing ('"' :: ((splitLiteral s).1 ++ t)) =
      '"' :: (splitLiteral s).1 ++ dropTrailing t := by
  rw [dropTrailing, splitLiteral_append ht]

theorem hasMark_literal {s t : List Char} (ht : (splitLiteral s).2 = [] → t = []) :
    hasMark ('"' :: ((splitLiteral s).1 ++ t)) = hasMark t := by
  rw [hasMark, splitLiteral_append ht]

/-- Newlines stand one by one before what follows them. -/
theorem newlines_induction {motive : List Char → Prop} (s : List Char) (nil : motive [])
    (cons : ∀ l, motive l → motive ('\n' :: l)) : motive (newlines s) := by
  have hall : ∀ c ∈ newlines s, c = '\n' := fun _ => mem_newlines
  generalize newlines s = l at hall
  induction l with
  | nil => exact nil
  | cons c l ih =>
    obtain ⟨rfl, hl⟩ := List.forall_mem_cons.mp hall
    exact cons l (ih hl)

theorem dropTrailing_newlines (s t : List Char) :
    dropTrailing (newlines s ++ t) = newlines s ++ dropTrailing t := by
  refine newlines_induction (motive := fun l => dropTrailing (l ++ t) = l ++ dropTrailing t) s rfl ?_
  intro l ih
  rw [List.cons_append, dropTrailing_code (by simp), ih]
  simp

theorem closes_newlines (s t : List Char) : closes (newlines s ++ t) = closes t := by
  refine newlines_induction (motive := fun l => closes (l ++ t) = closes t) s rfl ?_
  intro l ih
  rw [List.cons_append, closes, ih]
  simp [Text.isBlank]

theorem hasMark_newlines (s t : List Char) : hasMark (newlines s ++ t) = hasMark t := by
  refine newlines_induction (motive := fun l => hasMark (l ++ t) = hasMark t) s rfl ?_
  intro l ih
  rw [List.cons_append, hasMark_code (by simp), ih]
  simp

/-! ### Without comments -/

theorem stripComments_nil : stripComments [] = [] := by
  rw [stripComments, pieces, List.flatMap_nil]

/-- What comes next, blanks apart, is the same without the comments. -/
theorem closes_stripComments (text : List Char) :
    closes (stripComments text) = closesNext (pieces text) := by
  unfold stripComments
  fun_induction pieces text with
  | case1 => rfl
  | case2 s ih => simp [Piece.stripped, closesNext, closes, Text.isBlank]
  | case3 s ih | case4 s ih => rw [List.flatMap_cons, Piece.stripped, closes_newlines, ih, closesNext]
  | case5 c s _ _ _ ih =>
    rw [List.flatMap_cons, Piece.stripped, List.singleton_append, closes, closesNext, ih]

/-- **Looking ahead without the comments** settles each comma as looking ahead over them does. -/
theorem dropTrailing_stripComments (text : List Char) :
    dropTrailing (stripComments text) = settled (pieces text) := by
  unfold stripComments
  fun_induction pieces text with
  | case1 => simp [dropTrailing, settled]
  | case2 s ih =>
    have hend : (splitLiteral s).2 = [] → stripComments (splitLiteral s).2 = [] := by
      intro hs
      rw [hs, stripComments_nil]
    rw [List.flatMap_cons, Piece.stripped, settled, ← ih]
    exact dropTrailing_literal hend
  | case3 s ih | case4 s ih =>
    rw [List.flatMap_cons, Piece.stripped, dropTrailing_newlines, ih, settled]
  | case5 c s hquote _ _ ih =>
    have hnext := closes_stripComments s
    rw [stripComments] at hnext
    rw [List.flatMap_cons, Piece.stripped, List.singleton_append, dropTrailing_code hquote, hnext,
      ih, settled]

/-! ### Marks of comments -/

/-- A text that does not begin with a slash does not begin with a comment, so it keeps its first
character. -/
theorem head?_stripComments {text : List Char} (h : text.head? ≠ some '/') :
    (stripComments text).head? = text.head? := by
  unfold stripComments
  fun_cases pieces text with
  | case1 => rfl
  | case2 s => rfl
  | case3 s | case4 s => exact absurd rfl h
  | case5 c s => rfl

/-- **Taking comments out makes no new ones.** -/
theorem hasMark_stripComments (text : List Char) : hasMark (stripComments text) = false := by
  unfold stripComments
  fun_induction pieces text with
  | case1 => simp [hasMark]
  | case2 s ih =>
    have hend : (splitLiteral s).2 = [] → stripComments (splitLiteral s).2 = [] := by
      intro hs
      rw [hs, stripComments_nil]
    rw [List.flatMap_cons, Piece.stripped, ← ih]
    exact hasMark_literal hend
  | case3 s ih | case4 s ih => rw [List.flatMap_cons, Piece.stripped, hasMark_newlines, ih]
  | case5 c s hquote hline hblock ih =>
    rw [List.flatMap_cons, Piece.stripped, List.singleton_append, hasMark_code hquote, ih]
    by_cases hc : c = '/'
    · -- the slash was followed by no slash, so no comment was taken out behind it
      obtain ⟨hslash, hstar⟩ := head?_ne_mark hline hblock hc
      have hhead := head?_stripComments hslash
      rw [stripComments] at hhead
      simp [hhead, hslash, hstar]
    · simp [hc]

theorem head?_dropTrailing {d : Char} (hcomma : d ≠ ',') (hspace : d ≠ ' ') (s : List Char) :
    (dropTrailing s).head? = some d ↔ s.head? = some d := by
  fun_cases dropTrailing s with
  | case1 => rfl
  | case2 s => rfl
  | case3 c s hquote =>
    rw [List.head?_cons, List.head?_cons]
    split
    · next hc => simp [hc.1, hcomma.symm, hspace.symm]
    · rfl

/-- Spaces for commas leave the marks of comments as they are. -/
theorem hasMark_dropTrailing (s : List Char) : hasMark (dropTrailing s) = hasMark s := by
  fun_induction dropTrailing s with
  | case1 => rfl
  | case2 s ih =>
    have hend : (splitLiteral s).2 = [] → dropTrailing (splitLiteral s).2 = [] := by
      intro hs
      rw [hs, dropTrailing]
    rw [List.cons_append, hasMark_literal hend, ih, hasMark]
  | case3 c s hquote ih =>
    have hslash := head?_dropTrailing (d := '/') (by simp) (by simp) s
    have hstar := head?_dropTrailing (d := '*') (by simp) (by simp) s
    split
    · next hc => simp [hasMark_code, hc.1, ih]
    · rw [hasMark_code hquote, hasMark_code hquote, ih]
      simp only [hslash, hstar]

theorem normalize_eq_dropTrailing (text : List Char) :
    normalize text = dropTrailing (stripComments text) := by
  rw [normalize_eq_settled, dropTrailing_stripComments]

/-- A text without comments is left as it is by the first pass. -/
theorem stripComments_of_not_hasMark {text : List Char} (h : hasMark text = false) :
    stripComments text = text := by
  unfold stripComments
  fun_induction pieces text with
  | case1 => rfl
  | case2 s ih =>
    rw [hasMark] at h
    rw [List.flatMap_cons, Piece.stripped, ih h, List.cons_append, splitLiteral_fst_append_snd]
  | case3 s ih | case4 s ih => simp [hasMark] at h
  | case5 c s hquote _ _ ih =>
    rw [hasMark_code hquote, Bool.or_eq_false_iff] at h
    rw [List.flatMap_cons, Piece.stripped, ih h.2, List.singleton_append]

/-- **One pass is two.**  Normalizing a text takes its comments out, but for their newlines, and then
turns into a space each comma outside strings whose next character, blanks apart, is a closing
bracket.  No mark of a comment is left outside strings by the first of these, nor in the end. -/
theorem normalize_eq_two_passes (text : List Char) :
    normalize text = dropTrailing (stripComments text) ∧
      hasMark (stripComments text) = false ∧ hasMark (normalize text) = false := by
  refine ⟨normalize_eq_dropTrailing text, hasMark_stripComments text, ?_⟩
  rw [normalize_eq_dropTrailing, hasMark_dropTrailing, hasMark_stripComments]

end Prototypal.Relaxed
