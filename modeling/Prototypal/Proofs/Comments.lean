import Prototypal.Proofs.Pieces
import Prototypal.Proofs.Spacing

/-!
# Prototypal — Proofs — Comments

Comments of project files against white space.  `spaced text` is the text with a space and its
newlines for each comment.  A pass over a text leaves of a comment its newlines only, so a comment
without any joins what stands around it, where a space would not.  That makes a difference just
where both are solid (`Splits`): the characters are then read as one word or number, and apart they
are no JSON.

* `options?_spaced`: the options are those of the text with spaces for comments, unless the text
  splits; the one with spaces is then refused.
-/

namespace Prototypal.Relaxed

open Json

/-! ### Spaces for comments -/

/-- A piece with a space and its newlines for a comment. -/
def Piece.spaced : Piece → List Char
  | .code c => [c]
  | .literal s => s
  | .comment s => ' ' :: newlines s

/-- A text with a space and its newlines for each comment. -/
def spaced (text : List Char) : List Char := (pieces text).flatMap Piece.spaced

/-- The pieces of what stands for a piece. -/
def Piece.blanked : Piece → List Piece
  | .code c => [.code c]
  | .literal s => [.literal s]
  | .comment s => (' ' :: newlines s).map .code

theorem isSpace_of_mem_newlines (s : List Char) : ∀ c ∈ newlines s, isSpace c = true := by
  intro c hc
  rw [mem_newlines hc]
  rfl

theorem isGap_comment (s : List Char) : ∀ c ∈ ' ' :: newlines s, c = ' ' ∨ c = '\n' := by
  intro c hc
  rcases List.mem_cons.mp hc with rfl | hc
  · exact .inl rfl
  · exact .inr (mem_newlines hc)

theorem pieces_blanks {l : List Char} (hl : ∀ c ∈ l, c = ' ' ∨ c = '\n') (s : List Char) :
    pieces (l ++ s) = l.map .code ++ pieces s := by
  induction l with
  | nil => rfl
  | cons c l ih =>
    have hc := hl c List.mem_cons_self
    rw [List.cons_append, pieces_code, ih fun d hd => hl d (List.mem_cons_of_mem c hd)]
    · rfl
    · rcases hc with rfl | rfl <;> decide
    · rcases hc with rfl | rfl <;> exact fun h => absurd h (by decide)

/-- A text with spaces for comments begins as the text does, or with a space. -/
theorem head?_spaced (text : List Char) :
    (spaced text).head? = text.head? ∨ (spaced text).head? = some ' ' := by
  unfold spaced
  fun_cases pieces text with
  | case1 => exact .inl rfl
  | case2 s => exact .inl rfl
  | case3 s => exact .inr rfl
  | case4 s => exact .inr rfl
  | case5 c s => exact .inl rfl

/-- Spaces for comments make no other pieces: no two slashes come together. -/
theorem pieces_spaced (text : List Char) :
    pieces (spaced text) = (pieces text).flatMap Piece.blanked := by
  have comment : ∀ s t, pieces ((Piece.comment s).spaced ++ t) =
      (Piece.comment s).blanked ++ pieces t := fun s t => pieces_blanks (isGap_comment s) t
  unfold spaced
  fun_induction pieces text with
  | case1 => simp [pieces]
  | case2 s ih =>
    have hend : (splitLiteral s).2 = [] → spaced (splitLiteral s).2 = [] := fun h => by
      rw [h, spaced, pieces, List.flatMap_nil]
    rw [List.flatMap_cons, List.flatMap_cons, ← ih]
    show pieces ('"' :: ((splitLiteral s).1 ++ spaced (splitLiteral s).2)) = _
    rw [pieces, splitLiteral_append hend]
    rfl
  | case3 s ih => rw [List.flatMap_cons, List.flatMap_cons, comment, ih]
  | case4 s ih => rw [List.flatMap_cons, List.flatMap_cons, comment, ih]
  | case5 c s hquote hline hblock ih =>
    rw [List.flatMap_cons, List.flatMap_cons, ← ih]
    refine pieces_code hquote fun hc => ?_
    -- what comes behind the slash is what came before, or a space
    change (spaced s).head? ≠ some '/' ∧ (spaced s).head? ≠ some '*'
    rcases head?_spaced s with hhead | hhead
    · rw [hhead]
      exact head?_ne_mark hline hblock hc
    · rw [hhead]
      decide

/-! ### What a pass leaves -/

/-- What a pass leaves of pieces with a space and its newlines for each comment. -/
def blanked (ps : List Piece) : List Char := settled (ps.flatMap Piece.blanked)

theorem closesNext_blanks {l : List Char} (hl : ∀ c ∈ l, c = ' ' ∨ c = '\n') (ps : List Piece) :
    closesNext (l.map .code ++ ps) = closesNext ps := by
  induction l with
  | nil => rfl
  | cons c l ih =>
    have hc : Text.isBlank c = true := by
      rcases hl c List.mem_cons_self with rfl | rfl <;> decide
    rw [List.map_cons, List.cons_append, closesNext, if_pos hc]
    exact ih fun d hd => hl d (List.mem_cons_of_mem c hd)

theorem settled_blanks {l : List Char} (hl : ∀ c ∈ l, c = ' ' ∨ c = '\n') (ps : List Piece) :
    settled (l.map .code ++ ps) = l ++ settled ps := by
  induction l with
  | nil => rfl
  | cons c l ih =>
    have hc : c ≠ ',' := by
      rcases hl c List.mem_cons_self with rfl | rfl <;> decide
    rw [List.map_cons, List.cons_append, settled, if_neg fun h => hc h.1,
      ih fun d hd => hl d (List.mem_cons_of_mem c hd), List.cons_append]

theorem closesNext_blanked (ps : List Piece) :
    closesNext (ps.flatMap Piece.blanked) = closesNext ps := by
  induction ps with
  | nil => rfl
  | cons piece ps ih =>
    rw [List.flatMap_cons]
    cases piece with
    | code c => rw [Piece.blanked, List.singleton_append, closesNext, closesNext, ih]
    | literal s => rfl
    | comment s => rw [Piece.blanked, closesNext_blanks (isGap_comment s), closesNext, ih]

theorem blanked_code (c : Char) (ps : List Piece) : blanked (.code c :: ps) =
    (if c = ',' ∧ closesNext ps then ' ' else c) :: blanked ps := by
  rw [blanked, List.flatMap_cons, Piece.blanked, List.singleton_append, settled, closesNext_blanked]
  rfl

theorem blanked_literal (s : List Char) (ps : List Piece) :
    blanked (.literal s :: ps) = s ++ blanked ps := rfl

theorem blanked_comment (s : List Char) (ps : List Piece) :
    blanked (.comment s :: ps) = ' ' :: (newlines s ++ blanked ps) := by
  rw [blanked, List.flatMap_cons, Piece.blanked, settled_blanks (isGap_comment s)]
  rfl

/-! ### Comments that join -/

/-- A comment without newlines leaves no trace. -/
def Piece.Vanishes : Piece → Prop
  | .comment s => '\n' ∉ s
  | _ => False

/-- Comments that leave no trace come first, one at least, and then a solid character. -/
def Meets (ps : List Piece) : Prop :=
  ∃ comments y after, ps = comments ++ .code y :: after ∧ comments ≠ [] ∧
    (∀ piece ∈ comments, piece.Vanishes) ∧ isSolid y = true

/-- Somewhere only comments that leave no trace stand between two solid characters. -/
def Splits (ps : List Piece) : Prop :=
  ∃ before x after, ps = before ++ .code x :: after ∧ isSolid x = true ∧ Meets after

/-- Pieces split, or meet the solid character before them. -/
def SplitsFrom (p : Place) (ps : List Piece) : Prop := (p = .joined ∧ Meets ps) ∨ Splits ps

theorem splitsFrom_apart {ps : List Piece} : SplitsFrom .apart ps ↔ Splits ps := by
  simp [SplitsFrom]

theorem Splits.cons {ps : List Piece} (h : Splits ps) (piece : Piece) : Splits (piece :: ps) := by
  obtain ⟨before, x, after, rfl, hx, hmeets⟩ := h
  exact ⟨piece :: before, x, after, rfl, hx, hmeets⟩

theorem splits_code_iff {c : Char} (hc : c ≠ '"') {ps : List Piece} :
    Splits (.code c :: ps) ↔ SplitsFrom (.after c) ps := by
  have hafter : Place.after c = .joined ↔ isSolid c = true := by simp [Place.after, hc]
  rw [SplitsFrom, hafter]
  constructor
  · rintro ⟨before, x, after, hps, hx, hmeets⟩
    cases before with
    | nil =>
      obtain ⟨hcx, rfl⟩ := List.cons.inj hps
      cases hcx
      exact .inl ⟨hx, hmeets⟩
    | cons piece before =>
      obtain ⟨-, rfl⟩ := List.cons.inj hps
      exact .inr ⟨before, x, after, rfl, hx, hmeets⟩
  · rintro (⟨hsolid, hmeets⟩ | h)
    · exact ⟨[], c, ps, rfl, hsolid, hmeets⟩
    · exact h.cons _

theorem Splits.tail {piece : Piece} {ps : List Piece} (h : Splits (piece :: ps))
    (hpiece : ∀ x, piece = .code x → isSolid x = false) : Splits ps := by
  obtain ⟨before, x, after, hps, hx, hmeets⟩ := h
  cases before with
  | nil =>
    obtain ⟨rfl, -⟩ := List.cons.inj hps
    simp [hpiece x rfl] at hx
  | cons piece before =>
    obtain ⟨-, rfl⟩ := List.cons.inj hps
    exact ⟨before, x, after, rfl, hx, hmeets⟩

theorem Meets.vanishes {piece : Piece} {ps : List Piece} (h : Meets (piece :: ps)) :
    piece.Vanishes := by
  obtain ⟨comments, y, after, hps, hne, hvanish, -⟩ := h
  cases comments with
  | nil => exact (hne rfl).elim
  | cons piece comments =>
    obtain ⟨rfl, -⟩ := List.cons.inj hps
    exact hvanish _ List.mem_cons_self

theorem head?_newlines_append {s t : List Char} {y : Char} (h : (newlines s ++ t).head? = some y)
    (hy : isSolid y = true) : '\n' ∉ s ∧ t.head? = some y := by
  cases hs : newlines s with
  | nil =>
    rw [hs] at h
    refine ⟨fun hmem => ?_, h⟩
    have : '\n' ∈ newlines s := List.mem_filter.mpr ⟨hmem, by decide⟩
    simp [hs] at this
  | cons c l =>
    obtain rfl : c = y := by simpa [hs] using h
    obtain rfl : c = '\n' := mem_newlines (hs ▸ List.mem_cons_self)
    exact absurd hy (by decide)

/-- Where what a pass leaves begins with a solid character, only comments that leave no trace come
before it. -/
theorem exists_of_head?_settled {text : List Char} {y : Char}
    (h : (settled (pieces text)).head? = some y) (hy : isSolid y = true) :
    ∃ comments after, pieces text = comments ++ .code y :: after ∧
      ∀ piece ∈ comments, piece.Vanishes := by
  fun_induction pieces text with
  | case1 => cases h
  | case2 s ih =>
    obtain rfl : '"' = y := by simpa [settled] using h
    exact absurd hy (by decide)
  | case3 s ih | case4 s ih =>
    obtain ⟨hs, hhead⟩ := head?_newlines_append h hy
    obtain ⟨comments, after, hps, hvanish⟩ := ih hhead
    exact ⟨.comment _ :: comments, after, by rw [hps]; rfl, List.forall_mem_cons.mpr ⟨hs, hvanish⟩⟩
  | case5 c s _ _ _ ih =>
    rw [settled, List.head?_cons, Option.some.injEq] at h
    split at h
    · subst h
      exact absurd hy (by decide)
    · subst h
      exact ⟨[], _, rfl, by simp⟩

/-! ### Texts that do not split -/

theorem alike_literal {s t u : List Char} (hend : (splitLiteral s).2 = [] → t = [] ∧ u = [])
    (h : Alike .apart t u) : Alike .quoted ((splitLiteral s).1 ++ t) ((splitLiteral s).1 ++ u) := by
  refine splitLiteral_induction (motive := fun l => Alike .quoted (l ++ t) (l ++ u)) s (.close h)
    (fun _ _ => .escape) (fun _ _ => .plain) fun hs => ?_
  obtain ⟨rfl, rfl⟩ := hend hs
  exact ⟨.nil, .slash⟩

/-- What a pass leaves of a text that does not split differs from what it leaves with spaces for
comments only in spaces that do not matter. -/
theorem alike_blanked {text : List Char} {p : Place} (hp : p ≠ .quoted)
    (h : ¬ SplitsFrom p (pieces text)) :
    Alike p (settled (pieces text)) (blanked (pieces text)) := by
  have apart : ∀ {piece ps}, ¬ Splits (piece :: ps) → ¬ SplitsFrom .apart ps :=
    fun h hps => h ((splitsFrom_apart.mp hps).cons _)
  fun_induction pieces text generalizing p with
  | case1 => exact .nil
  | case2 s ih =>
    have hrest := ih (by decide) (apart fun hs => h (.inr hs))
    rw [settled, blanked_literal, List.cons_append, List.cons_append]
    refine .char hp (by decide) (alike_literal (fun hs => ?_) hrest)
    rw [hs, pieces]
    exact ⟨rfl, rfl⟩
  | case3 s ih | case4 s ih =>
    have hrest := ih (by decide) (apart fun hs => h (.inr hs))
    rw [settled, blanked_comment]
    refine .right hp (by decide) (fun hjoined y hy => ?_) (hrest.spaces (isSpace_of_mem_newlines _))
    -- a solid character next would meet the one before
    by_contra hsolid
    rw [Bool.not_eq_false] at hsolid
    obtain ⟨hs, hhead⟩ := head?_newlines_append hy hsolid
    obtain ⟨comments, after, hps, hvanish⟩ := exists_of_head?_settled hhead hsolid
    refine h (.inl ⟨hjoined, .comment _ :: comments, y, after, ?_, List.cons_ne_nil _ _,
      List.forall_mem_cons.mpr ⟨hs, hvanish⟩, hsolid⟩)
    rw [hps]
    rfl
  | case5 c s hquote _ _ ih =>
    have hcode : ¬ SplitsFrom (.after c) (pieces s) :=
      fun hs => h (.inr ((splits_code_iff hquote).mpr hs))
    have hrest := ih (by decide) (apart fun hs => h (.inr hs))
    rw [settled, blanked_code]
    split
    · exact .space hp (by decide) hrest
    · cases hspace : isSpace c with
      | true => exact .space hp hspace hrest
      | false => exact .char hp hspace (ih (Place.after_ne_quoted hquote) hcode)

/-! ### Texts that split -/

theorem torn_literal {s t : List Char} (hend : (splitLiteral s).2 = [] → t = [])
    (h : Torn .apart t) : Torn .quoted ((splitLiteral s).1 ++ t) := by
  refine splitLiteral_induction (motive := fun l => Torn .quoted (l ++ t)) s (.close h)
    (fun _ _ => .escape) (fun _ _ => .plain) fun hs => ?_
  rw [hend hs] at h
  cases h

theorem skipSpace_newlines (s t : List Char) : skipSpace (newlines s ++ t) = skipSpace t :=
  List.dropWhile_append_of_pos (isSpace_of_mem_newlines s)

theorem skipSpace_blanked {comments : List Piece} (hvanish : ∀ piece ∈ comments, piece.Vanishes)
    {y : Char} (hy : isSolid y = true) (after : List Piece) :
    skipSpace (blanked (comments ++ .code y :: after)) = y :: blanked after := by
  induction comments with
  | nil =>
    have hcomma : y ≠ ',' := fun e => by simp [e, isSolid, isMark] at hy
    rw [List.nil_append, blanked_code, if_neg fun h => hcomma h.1,
      skipSpace_of_not_isSpace (isSpace_of_isSolid hy)]
  | cons piece comments ih =>
    obtain ⟨hpiece, hrest⟩ := List.forall_mem_cons.mp hvanish
    cases piece with
    | code | literal => exact hpiece.elim
    | comment s =>
      rw [List.cons_append, blanked_comment, skipSpace_space (by decide), skipSpace_newlines,
        ih hrest]

/-- With spaces for comments, a pass leaves torn what comments divide. -/
theorem torn_blanked {text : List Char} {p : Place} (hp : p ≠ .quoted)
    (h : SplitsFrom p (pieces text)) : Torn p (blanked (pieces text)) := by
  fun_induction pieces text generalizing p with
  | case1 =>
    rcases h with ⟨-, comments, y, after, hps, -⟩ | ⟨before, x, after, hps, -⟩ <;> simp at hps
  | case2 s ih =>
    rcases h with ⟨-, hmeets⟩ | hsplits
    · exact hmeets.vanishes.elim
    · have hrest := ih (by decide) (splitsFrom_apart.mpr (hsplits.tail (by simp)))
      rw [blanked_literal, List.cons_append]
      refine .char hp (by decide) (torn_literal (fun hs => ?_) hrest)
      rw [hs, pieces]
      rfl
  | case3 s ih | case4 s ih =>
    rw [blanked_comment]
    rcases h with ⟨rfl, comments, y, after, hps, hne, hvanish, hy⟩ | hsplits
    · cases comments with
      | nil => exact (hne rfl).elim
      | cons piece comments =>
        obtain ⟨-, hps⟩ := List.cons.inj hps
        have hnext := skipSpace_blanked (List.forall_mem_cons.mp hvanish).2 hy after
        rw [← List.append_eq, ← hps, ← skipSpace_newlines] at hnext
        exact .here (by decide) hnext hy
    · have hrest := ih (by decide) (splitsFrom_apart.mpr (hsplits.tail (by simp)))
      exact .space hp (by decide) (hrest.spaces (isSpace_of_mem_newlines _))
  | case5 c s hquote _ _ ih =>
    rcases h with ⟨-, hmeets⟩ | hsplits
    · exact hmeets.vanishes.elim
    · have hcode := (splits_code_iff hquote).mp hsplits
      rw [blanked_code]
      split
      · next hcomma =>
        obtain ⟨rfl, -⟩ := hcomma
        exact .space hp (by decide) (ih (by decide) hcode)
      · cases hspace : isSpace c with
        | true =>
          rw [Place.after_space hspace] at hcode
          exact .space hp hspace (ih (by decide) hcode)
        | false => exact .char hp hspace (ih (Place.after_ne_quoted hquote) hcode)

/-! ### Options -/

/-- The options that a text of relaxed JSON gives, if any. -/
def options? (text : String) : Option Options :=
  ((Project.parse text).map Project.options).toOption

theorem options?_eq_some {text : String} {o : Options} : options? text = some o ↔
    ∃ project, Settings.readDocument Project.read (settled (pieces text.toList)) = .ok project ∧
      project.options = o := by
  unfold options? Project.parse
  rw [normalize_eq_settled]
  cases Settings.readDocument Project.read (settled (pieces text.toList)) <;>
    simp [Except.map, Except.mapError, Except.toOption]

/-- **A comment is as good as white space, but between two solid characters.**  A text with a space
and its newlines for each comment gives the options that the text itself gives, if any, unless
somewhere only comments without newlines stand between two solid characters; then it gives none. -/
theorem options?_spaced (text : String) (o : Options) :
    options? (String.ofList (spaced text.toList)) = some o ↔
      options? text = some o ∧ ¬ Splits (pieces text.toList) := by
  rw [options?_eq_some, options?_eq_some, String.toList_ofList, pieces_spaced]
  by_cases hsplits : Splits (pieces text.toList)
  · have htorn : Torn .apart (blanked (pieces text.toList)) :=
      torn_blanked (by decide) (splitsFrom_apart.mpr hsplits)
    refine ⟨?_, fun h => absurd hsplits h.2⟩
    rintro ⟨project, hread, -⟩
    exact (not_torn_of_readDocument hread htorn).elim
  · have halike : Alike .apart (settled (pieces text.toList)) (blanked (pieces text.toList)) :=
      alike_blanked (by decide) (mt splitsFrom_apart.mp hsplits)
    constructor
    · rintro ⟨project, hread, ho⟩
      exact ⟨⟨project, (readDocument_alike halike).mpr hread, ho⟩, hsplits⟩
    · rintro ⟨⟨project, hread, ho⟩, -⟩
      exact ⟨project, (readDocument_alike halike).mp hread, ho⟩

/-- A number with a comment in it. -/
def dividedNumber : String :=
  "\x7b\"analyzerOptions\":\x7b\"maxPrototypeDepth\":6/**/4\x7d\x7d"

/-- Read as one number, where a space for the comment leaves two. -/
theorem options?_spaced_dividedNumber :
    options? dividedNumber = some { limits := { depth := 64 } } ∧
      options? (String.ofList (spaced dividedNumber.toList)) = none := by
  decide +kernel

end Prototypal.Relaxed
