import Prototypal.Proofs.Grammar
import Prototypal.Proofs.Pieces

/-!
# Prototypal — Proofs — Meaning

Normalizing a relaxed text keeps what it says.

A stretch of text is followed through a pass by what the pass writes for it, whatever was written
before and whatever comes after: `Keeps` for a gap, over which a comma may go on waiting, and
`Carries` for anything with a value in it, after which no comma waits.  A comma before a closing
bracket waits over the gap behind it and becomes a space, which the gap before it takes in.

* `normalize_keeps_meaning`: a relaxed text becomes a strict one that says the same, and a strict
  text is not changed.
-/

namespace Prototypal.Relaxed

open Json

/-- Over the gap a pass writes `out`, and a comma that waits goes on waiting. -/
def Keeps (gap out : List Char) : Prop :=
  ∀ before comma rest, written before comma (gap ++ rest) = written (before ++ out) comma rest

/-- Over the text a pass writes `out`, and no comma waits behind it. -/
def Carries (text out : List Char) : Prop :=
  ∀ before comma rest, written before comma (text ++ rest) = written (before ++ out) none rest

theorem Keeps.append {g h x y : List Char} (hg : Keeps g x) (hh : Keeps h y) :
    Keeps (g ++ h) (x ++ y) := by
  intro before comma rest
  rw [List.append_assoc, hg, hh, List.append_assoc]

theorem Carries.append {s t x y : List Char} (hs : Carries s x) (ht : Carries t y) :
    Carries (s ++ t) (x ++ y) := by
  intro before comma rest
  rw [List.append_assoc, hs, ht, List.append_assoc]

theorem Keeps.carries {g s x y : List Char} (hg : Keeps g x) (hs : Carries s y) :
    Carries (g ++ s) (x ++ y) := by
  intro before comma rest
  rw [List.append_assoc, hg, hs, List.append_assoc]

theorem Carries.keeps {g s x y : List Char} (hs : Carries s x) (hg : Keeps g y) :
    Carries (s ++ g) (x ++ y) := by
  intro before comma rest
  rw [List.append_assoc, hs, hg, List.append_assoc]

/-! ### Numbers, words and strings -/

/-- Whether a character of code is written as it is, and ends the waiting of a comma. -/
def isInert (c : Char) : Bool := isPlain c && c != '/'

theorem carries_inert {c : Char} (hc : isInert c = true) : Carries [c] [c] := by
  intro before comma rest
  rw [isInert, Bool.and_eq_true, bne_iff_ne] at hc
  exact written_plain hc.1 fun h => absurd h hc.2

theorem carries_all_inert {s : List Char} (hne : s ≠ []) (h : ∀ c ∈ s, isInert c = true) :
    Carries s s := by
  induction s with
  | nil => exact absurd rfl hne
  | cons c s ih =>
    have hc : Carries [c] [c] := carries_inert (h c List.mem_cons_self)
    cases s with
    | nil => exact hc
    | cons d s => exact hc.append (ih (by simp) fun e he => h e (List.mem_cons_of_mem c he))

theorem isInert_of_isDigit {c : Char} (h : c.isDigit = true) : isInert c = true := by
  have hrange : 48 ≤ c.toNat ∧ c.toNat ≤ 57 := by
    rwa [Char.isDigit, Bool.and_eq_true, decide_eq_true_eq, decide_eq_true_eq] at h
  have hne : ∀ d, d.isDigit = false → c ≠ d := fun d hd e => by simp [← e, h] at hd
  have hblank : Text.isBlank c = false := by
    simp only [Text.isBlank, Bool.or_eq_false_iff, Bool.and_eq_false_iff, decide_eq_false_iff_not,
      beq_eq_false_iff_ne]
    omega
  simp [isInert, isPlain, hblank, hne '\x7d' (by decide), hne ']' (by decide), hne ',' (by decide),
    hne '"' (by decide), hne '/' (by decide)]

theorem isInert_of_isWhole {s : List Char} (h : IsWhole s) : ∀ c ∈ s, isInert c = true := by
  cases h with
  | zero => exact List.all_eq_true.mp rfl
  | digits hc _ hs =>
    rintro d (_ | ⟨_, hd⟩)
    · exact isInert_of_isDigit hc
    · exact isInert_of_isDigit (hs d hd)

theorem isInert_of_isFraction {s : List Char} (h : IsFraction s) : ∀ c ∈ s, isInert c = true := by
  cases h with
  | none => simp
  | digits hs =>
    rintro d (_ | ⟨_, hd⟩)
    · decide
    · exact isInert_of_isDigit (hs.2 d hd)

theorem isInert_of_isExponent {s : List Char} (h : IsExponent s) : ∀ c ∈ s, isInert c = true := by
  cases h with
  | none => simp
  | digits he hsign hs =>
    intro d hd
    rcases List.mem_append.mp hd with hd | hd
    · rcases List.mem_cons.mp hd with rfl | hd
      · rcases he with rfl | rfl <;> decide
      · rcases hsign with rfl | rfl | rfl
        · cases hd
        · exact List.mem_singleton.mp hd ▸ by decide
        · exact List.mem_singleton.mp hd ▸ by decide
    · exact isInert_of_isDigit (hs.2 d hd)

theorem isInert_of_isNumber {s : List Char} (h : IsNumber s) :
    s ≠ [] ∧ ∀ c ∈ s, isInert c = true := by
  obtain ⟨hsign, hwhole, hfraction, hexponent⟩ := h
  refine ⟨?_, fun c hc => ?_⟩
  · cases hwhole <;> simp
  · simp only [List.mem_append] at hc
    rcases hc with ((hc | hc) | hc) | hc
    · rcases hsign with rfl | rfl
      · cases hc
      · exact List.mem_singleton.mp hc ▸ by decide
    · exact isInert_of_isWhole hwhole c hc
    · exact isInert_of_isFraction hfraction c hc
    · exact isInert_of_isExponent hexponent c hc

theorem carries_number {s : List Char} (h : IsNumber s) : Carries s s :=
  carries_all_inert (isInert_of_isNumber h).1 (isInert_of_isNumber h).2

theorem splitLiteral_plain {c : Char} (hquote : c ≠ '"') (hescape : c ≠ '\\') (s : List Char) :
    splitLiteral (c :: s) = (c :: (splitLiteral s).1, (splitLiteral s).2) := by
  rw [splitLiteral]
  · exact hquote
  · exact fun _ _ hc _ => hescape hc

theorem splitLiteral_of_isText {s : List Char} (h : IsText s) (rest : List Char) :
    splitLiteral (s ++ '"' :: rest) = (s ++ ['"'], rest) := by
  induction h with
  | nil => rfl
  | plain _ hquote hescape _ ih => rw [List.cons_append, splitLiteral_plain hquote hescape, ih]; rfl
  | short _ _ ih => rw [List.cons_append, List.cons_append, splitLiteral, ih]; rfl
  | unit hhex _ ih =>
    have hplain : ∀ x, (hexDigit? x).isSome → x ≠ '"' ∧ x ≠ '\\' := by
      rintro x hx
      constructor <;> (rintro rfl; exact absurd hx (by decide))
    simp only [List.forall_mem_cons] at hhex
    obtain ⟨ha, hb, hc, hd, -⟩ := hhex
    simp only [List.cons_append]
    rw [splitLiteral, splitLiteral_plain (hplain _ ha).1 (hplain _ ha).2,
      splitLiteral_plain (hplain _ hb).1 (hplain _ hb).2,
      splitLiteral_plain (hplain _ hc).1 (hplain _ hc).2,
      splitLiteral_plain (hplain _ hd).1 (hplain _ hd).2, ih]

theorem carries_literal {s : List Char} (h : IsText s) :
    Carries ('"' :: s ++ ['"']) ('"' :: s ++ ['"']) := by
  intro before comma rest
  rw [List.cons_append, List.cons_append, List.append_assoc, written_literal, List.singleton_append,
    splitLiteral_of_isText h]

/-! ### Gaps -/

theorem isBlank_of_isSpace {c : Char} (h : isSpace c = true) : Text.isBlank c = true := by
  simp only [isSpace, Bool.or_eq_true, beq_iff_eq] at h
  rcases h with ((rfl | rfl) | rfl) | rfl <;> decide

theorem gap_append {d : Dialect} {g h : List Char} (hg : d.Gap g) (hh : d.Gap h) :
    d.Gap (g ++ h) := by
  induction hg with
  | nil => exact hh
  | space hc _ ih => exact .space hc (ih hh)
  | line hbody _ ih =>
    rw [List.append_assoc]
    exact .line hbody (ih hh)
  | block hbody _ ih =>
    rw [List.append_assoc]
    exact .block hbody (ih hh)

theorem gap_newlines (d : Dialect) (s : List Char) : d.Gap (newlines s) := by
  induction s with
  | nil => exact .nil
  | cons c s ih =>
    by_cases hc : c = '\n'
    · subst hc
      exact .space (by decide) ih
    · rwa [newlines_mark hc]

theorem splitBlock_of_not_infix {body : List Char} (h : ¬ ['*', '/'] <:+: body) (rest : List Char) :
    splitBlock (body ++ '*' :: '/' :: rest) = (body ++ ['*', '/'], rest) := by
  induction body with
  | nil => rfl
  | cons c body ih =>
    have hbody : ¬ ['*', '/'] <:+: body := fun hi => h (hi.trans (List.suffix_cons c body).isInfix)
    rw [List.cons_append, splitBlock, ih hbody]
    · rfl
    · -- the mark would stand at the head of the body
      rintro s rfl hs
      cases body with
      | nil => cases hs
      | cons d body =>
        cases hs
        exact h ⟨[], body, rfl⟩

theorem keeps_gap {d : Dialect} {g : List Char} (h : d.Gap g) :
    ∃ out, Dialect.strict.Gap out ∧ Keeps g out ∧ (d = .strict → out = g) := by
  induction h with
  | nil => exact ⟨[], .nil, fun _ _ _ => by simp, fun _ => rfl⟩
  | @space d c s hc _ ih =>
    obtain ⟨out, hout, hkeeps, hsame⟩ := ih
    have hspace : Keeps [c] [c] := fun _ _ _ => written_blank (isBlank_of_isSpace hc)
    exact ⟨c :: out, .space hc hout, hspace.append hkeeps, fun hd => by rw [hsame hd]⟩
  | @line body s hbody _ ih =>
    obtain ⟨out, hout, hkeeps, -⟩ := ih
    have hline : Keeps ('/' :: '/' :: body ++ ['\n']) ['\n'] := by
      intro before comma rest
      have hdrop : (body ++ ['\n'] ++ rest).dropWhile (· ≠ '\n') = '\n' :: rest := by
        rw [List.append_assoc, List.dropWhile_append_of_pos fun c hc => ?_]
        · simp
        · exact decide_eq_true fun e => hbody (e ▸ hc)
      rw [List.cons_append, List.cons_append, List.cons_append, List.cons_append, written_line,
        hdrop, written_blank (by decide)]
    refine ⟨'\n' :: out, .space (by decide) hout, ?_, nofun⟩
    have := hline.append hkeeps
    rwa [List.append_assoc] at this
  | @block body s hbody _ ih =>
    obtain ⟨out, hout, hkeeps, -⟩ := ih
    have hblock : Keeps ('/' :: '*' :: body ++ ['*', '/']) (newlines body) := by
      intro before comma rest
      have hmarks : newlines (body ++ ['*', '/']) = newlines body := by simp [newlines]
      simp only [List.cons_append, List.append_assoc, List.nil_append]
      rw [written_block, splitBlock_of_not_infix hbody, hmarks]
    refine ⟨newlines body ++ out, gap_append (gap_newlines _ _) hout, ?_, nofun⟩
    have := hblock.append hkeeps
    rwa [List.append_assoc] at this

/-! ### Brackets -/

theorem Carries.closing {s x : List Char} {c : Char} (hs : Carries s x)
    (hc : c = '\x7d' ∨ c = ']') : Carries (s ++ [c]) (x ++ [c]) := by
  intro before comma rest
  rw [List.append_assoc, hs, List.singleton_append, written_closing hc (.none _),
    List.append_assoc]

/-- A comma before the closing bracket becomes a space. -/
theorem Carries.tail {d : Dialect} {s x e : List Char} {c : Char} (hs : Carries s x)
    (he : d.Tail e) (hc : c = '\x7d' ∨ c = ']') :
    ∃ g, Dialect.strict.Gap g ∧ Carries (s ++ e ++ [c]) (x ++ g ++ [c]) ∧
      (d = .strict → g = e) := by
  cases he with
  | nil =>
    refine ⟨[], .nil, ?_, fun _ => rfl⟩
    rw [List.append_nil, List.append_nil]
    exact hs.closing hc
  | @comma h hh =>
    obtain ⟨g, hg, hkeeps, -⟩ := keeps_gap hh
    refine ⟨' ' :: g, .space (by decide) hg, fun before comma rest => ?_, nofun⟩
    have hdrops : Drops (some (Text.byteSize (before ++ x))) (before ++ x ++ [','] ++ g)
        (before ++ x ++ ' ' :: g) := by
      rw [List.append_assoc (before ++ x)]
      exact .comma (before ++ x) g
    calc written before comma (s ++ ',' :: h ++ [c] ++ rest)
        = written before comma (s ++ ',' :: (h ++ c :: rest)) := by simp
      _ = written (before ++ x ++ [',']) (some (Text.byteSize (before ++ x))) (h ++ c :: rest) := by
          rw [hs, written_comma]
      _ = written (before ++ x ++ ' ' :: g ++ [c]) none rest := by
          rw [hkeeps, written_closing hc hdrops]
      _ = written (before ++ (x ++ ' ' :: g ++ [c])) none rest := by simp

/-! ### Items -/

theorem carries_member {key g g₁ g₂ g' s x x₁ x₂ x' out : List Char} (hg : Keeps g x)
    (hkey : IsText key) (hg₁ : Keeps g₁ x₁) (hg₂ : Keeps g₂ x₂) (hs : Carries s out)
    (hg' : Keeps g' x') :
    Carries (g ++ ('"' :: key ++ ['"']) ++ g₁ ++ [':'] ++ g₂ ++ s ++ g')
      (x ++ ('"' :: key ++ ['"']) ++ x₁ ++ [':'] ++ x₂ ++ out ++ x') := by
  have hcolon : Carries [':'] [':'] := carries_inert (by decide)
  have hname := ((hg.carries (carries_literal hkey)).keeps hg₁).append hcolon
  exact ((hname.keeps hg₂).append hs).keeps hg'

/-- A comma with something behind it is kept. -/
theorem Carries.more {s r x y : List Char} (hs : Carries s x) (hr : Carries r y) :
    Carries (s ++ ',' :: r) (x ++ ',' :: y) := by
  intro before comma rest
  rw [List.append_assoc, hs, List.cons_append, written_comma, hr]
  simp

/-! ### Values -/

theorem spells_item_append_gap {d : Dialect} {i : Item} {s g : List Char}
    (h : Spells d (.item i) s) (hg : d.Gap g) : Spells d (.item i) (s ++ g) := by
  cases h with
  | element hg₀ h hg' =>
    rw [List.append_assoc]
    exact .element hg₀ h (gap_append hg' hg)
  | member hg₀ hkey hg₁ hg₂ h hg' =>
    rw [List.append_assoc]
    exact .member hg₀ hkey hg₁ hg₂ h (gap_append hg' hg)

theorem spells_items_append_gap {d : Dialect} {g : List Char} (hg : d.Gap g) :
    ∀ {is : List Item} {s : List Char},
      Spells d (.items is) s → Spells d (.items is) (s ++ g)
  | _, _, .last h => .last (spells_item_append_gap h hg)
  | _, _, .more h hr => by
    rw [List.append_assoc]
    exact .more h (spells_items_append_gap hg hr)

/-- What is written for a phrase spells the same phrase strictly; what was strict is not changed. -/
theorem carries_spells {d : Dialect} {p : Phrase} {s : List Char} (h : Spells d p s) :
    ∃ out, Spells .strict p out ∧ Carries s out ∧ (d = .strict → out = s) := by
  have hword : ∀ c s, (c :: s).all isInert = true → Carries (c :: s) (c :: s) :=
    fun c s hs => carries_all_inert (List.cons_ne_nil c s) (List.all_eq_true.mp hs)
  have hsquare : Carries ['['] ['['] := carries_inert (by decide)
  have hcurly : Carries ['\x7b'] ['\x7b'] := carries_inert (by decide)
  induction h with
  | null => exact ⟨_, .null, hword _ _ rfl, fun _ => rfl⟩
  | true => exact ⟨_, .true, hword _ _ rfl, fun _ => rfl⟩
  | false => exact ⟨_, .false, hword _ _ rfl, fun _ => rfl⟩
  | number hs => exact ⟨_, .number hs, carries_number hs, fun _ => rfl⟩
  | text hs => exact ⟨_, .text hs, carries_literal hs, fun _ => rfl⟩
  | emptyArray hg =>
    obtain ⟨g', hg', hkeeps, hsame⟩ := keeps_gap hg
    refine ⟨_, .emptyArray hg', (hsquare.keeps hkeeps).closing (.inr rfl), fun hd => ?_⟩
    rw [hsame hd]
  | emptyObject hg =>
    obtain ⟨g', hg', hkeeps, hsame⟩ := keeps_gap hg
    refine ⟨_, .emptyObject hg', (hcurly.keeps hkeeps).closing (.inl rfl), fun hd => ?_⟩
    rw [hsame hd]
  | array _ he ih =>
    obtain ⟨out, hout, hcarries, hsame⟩ := ih
    obtain ⟨g, hg, htail, hnone⟩ := (hsquare.append hcarries).tail he (.inr rfl)
    refine ⟨_, .array (spells_items_append_gap hg hout) .nil, ?_, fun hd => ?_⟩
    · simpa using htail
    · rw [hsame hd, hnone hd, List.append_nil]
  | object _ he ih =>
    obtain ⟨out, hout, hcarries, hsame⟩ := ih
    obtain ⟨g, hg, htail, hnone⟩ := (hcurly.append hcarries).tail he (.inl rfl)
    refine ⟨_, .object (spells_items_append_gap hg hout) .nil, ?_, fun hd => ?_⟩
    · simpa using htail
    · rw [hsame hd, hnone hd, List.append_nil]
  | element hg _ hg' ih =>
    obtain ⟨out, hout, hcarries, hsame⟩ := ih
    obtain ⟨x, hx, hkeeps, hsame₀⟩ := keeps_gap hg
    obtain ⟨x', hx', hkeeps', hsame'⟩ := keeps_gap hg'
    refine ⟨_, .element hx hout hx', (hkeeps.carries hcarries).keeps hkeeps', fun hd => ?_⟩
    rw [hsame hd, hsame₀ hd, hsame' hd]
  | member hg hkey hg₁ hg₂ _ hg' ih =>
    obtain ⟨out, hout, hcarries, hsame⟩ := ih
    obtain ⟨x, hx, hkeeps, hsame₀⟩ := keeps_gap hg
    obtain ⟨x₁, hx₁, hkeeps₁, hsame₁⟩ := keeps_gap hg₁
    obtain ⟨x₂, hx₂, hkeeps₂, hsame₂⟩ := keeps_gap hg₂
    obtain ⟨x', hx', hkeeps', hsame'⟩ := keeps_gap hg'
    refine ⟨_, .member hx hkey hx₁ hx₂ hout hx', ?_, fun hd => ?_⟩
    · exact carries_member hkeeps hkey hkeeps₁ hkeeps₂ hcarries hkeeps'
    · rw [hsame hd, hsame₀ hd, hsame₁ hd, hsame₂ hd, hsame' hd]
  | last _ ih =>
    obtain ⟨out, hout, hcarries, hsame⟩ := ih
    exact ⟨out, .last hout, hcarries, hsame⟩
  | more _ _ ih ihr =>
    obtain ⟨out, hout, hcarries, hsame⟩ := ih
    obtain ⟨out', hout', hcarries', hsame'⟩ := ihr
    exact ⟨_, .more hout hout', hcarries.more hcarries', fun hd => by rw [hsame hd, hsame' hd]⟩

/-- At the end of a text a line comment may lack its newline. -/
theorem written_lastGap {d : Dialect} {g : List Char} (h : d.LastGap g) :
    ∃ out, Dialect.strict.Gap out ∧
      (∀ before comma, written before comma g = some (before ++ out)) ∧
      (d = .strict → out = g) := by
  cases h with
  | gap h =>
    obtain ⟨out, hout, hkeeps, hsame⟩ := keeps_gap h
    refine ⟨out, hout, fun before comma => ?_, hsame⟩
    simpa using hkeeps before comma []
  | @line s body h hbody =>
    obtain ⟨out, hout, hkeeps, -⟩ := keeps_gap h
    have hdrop : body.dropWhile (· ≠ '\n') = [] :=
      List.dropWhile_eq_nil_iff.mpr fun c hc => decide_eq_true fun e => hbody (e ▸ hc)
    refine ⟨out, hout, fun before comma => ?_, nofun⟩
    rw [hkeeps, written_line, hdrop, written_nil]

theorem normalize_of_carries {s g x y : List Char} (hs : Carries s x)
    (hg : ∀ before comma, written before comma g = some (before ++ y)) :
    normalize (s ++ g) = x ++ y := by
  have h := written_eq_normalize (s ++ g)
  rw [hs, hg, List.nil_append, Option.some.injEq] at h
  exact h.symm

theorem normalize_writes {d : Dialect} {t : Tree} {text : List Char} (h : Writes d t text) :
    Writes .strict t (normalize text) ∧ (d = .strict → normalize text = text) := by
  obtain ⟨hg, h, hg'⟩ := h
  obtain ⟨x, hx, hkeeps, hsame⟩ := keeps_gap hg
  obtain ⟨out, hout, hcarries, hsame₁⟩ := carries_spells h
  obtain ⟨x', hx', hlast, hsame'⟩ := written_lastGap hg'
  rw [normalize_of_carries (hkeeps.carries hcarries) hlast]
  refine ⟨.value hx hout (.gap hx'), fun hd => ?_⟩
  rw [hsame hd, hsame₁ hd, hsame' hd]

/-- **Normalizing keeps the meaning.**  A relaxed text becomes a strict one that says the same, with
the same members in the same order and the same strings and numbers character for character; and a
strict text is left as it is. -/
theorem normalize_keeps_meaning (t : Tree) (text : List Char) :
    (Writes .relaxed t text → Writes .strict t (normalize text)) ∧
    (Writes .strict t text → normalize text = text) :=
  ⟨fun h => (normalize_writes h).1, fun h => (normalize_writes h).2 rfl⟩

/-- An object with an array, each with a comma behind its last item, and comments. -/
def trailing : List Char := "\x7b\"a//\":[0,/*]*/],\x7d//".toList

theorem writes_trailing :
    Writes .relaxed (.object [(['a', '/', '/'], .array [.number ['0']])]) trailing := by
  have hkey : IsText ['a', '/', '/'] := by
    refine .plain ?_ ?_ ?_ (.plain ?_ ?_ ?_ (.plain ?_ ?_ ?_ .nil)) <;> decide
  have hzero : Spells .relaxed (.value (.number ['0'])) ['0'] :=
    .number (.parts (.inl rfl) .zero .none .none)
  have hcomment : Dialect.relaxed.Gap "/*]*/".toList := @Dialect.Gap.block [']'] [] (by decide) .nil
  have harray := @Spells.array .relaxed [.number ['0']] _ _ (.last (.element .nil hzero .nil))
    (.comma hcomment)
  have hobject := @Spells.object .relaxed [(['a', '/', '/'], .array [.number ['0']])] _ _
    (.last (.member .nil hkey .nil .nil harray .nil)) (.comma .nil)
  exact .value .nil hobject (.line .nil List.not_mem_nil)

theorem normalize_keeps_meaning_trailing :
    Writes .strict (.object [(['a', '/', '/'], .array [.number ['0']])]) (normalize trailing) ∧
    normalize trailing = "\x7b\"a//\":[0 ] \x7d".toList ∧
    normalize (normalize trailing) = normalize trailing := by
  have hstrict := (normalize_keeps_meaning _ _).1 writes_trailing
  exact ⟨hstrict, by decide +kernel, (normalize_keeps_meaning _ _).2 hstrict⟩

end Prototypal.Relaxed
