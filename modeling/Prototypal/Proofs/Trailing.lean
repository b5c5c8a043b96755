import Prototypal.Proofs.Meaning
import Prototypal.Proofs.Stripping

/-!
# Prototypal — Proofs — Trailing

Which commas normalizing a text forgives.

The grammar of such texts is strict JSON with a comma more before closing brackets
(`Json.Trailing`): behind the last item of an array or object, or, if `lone` is set, alone in an
empty one.  A pass that only looks for the next closing bracket knows of no items, so that nothing
else is forgiven has to be read back from what it wrote.  Reading back goes along the derivation of
the strict text: a value was a value, wherever it stands (`Recovers`), and a gap or an item was one
with maybe a comma behind it, but only where a closing bracket comes next (`Restores`).  There is at
most one such comma, since before another comma a comma is kept.

* `normalize_strict_iff`: what is normalized to strict JSON is strict JSON with such commas.
* `normalize_strict_loneComma`: commas behind last items are not all of them.
-/

namespace Prototypal.Json

/-! ### Commas before closing brackets -/

/-- What may come before a closing bracket and is not strict JSON: a comma, and space behind it. -/
inductive Extra : List Char → Prop where
  | none : Extra []
  | comma {g : List Char} (hg : Dialect.strict.Gap g) : Extra (',' :: g)

/-- A text that spells a phrase strictly, except that each array or object that is not empty may have
one comma behind its last item.  If `lone` is set, an empty one may have a comma too. -/
inductive Trailing (lone : Bool) : Phrase → List Char → Prop where
  | strict {t : Tree} {s : List Char} (h : Spells .strict (.value t) s) : Trailing lone (.value t) s
  | loneArray {g g' : List Char} (hlone : lone = true) (hg : Dialect.strict.Gap g)
      (hg' : Dialect.strict.Gap g') :
      Trailing lone (.value (.array [])) ('[' :: (g ++ ',' :: g') ++ [']'])
  | array {ts : List Tree} {s e : List Char} (h : Trailing lone (.items (ts.map .element)) s)
      (he : Extra e) : Trailing lone (.value (.array ts)) ('[' :: (s ++ e) ++ [']'])
  | loneObject {g g' : List Char} (hlone : lone = true) (hg : Dialect.strict.Gap g)
      (hg' : Dialect.strict.Gap g') :
      Trailing lone (.value (.object [])) ('\x7b' :: (g ++ ',' :: g') ++ ['\x7d'])
  | object {ms : List (List Char × Tree)} {s e : List Char}
      (h : Trailing lone (.items (ms.map fun m => .member m.1 m.2)) s) (he : Extra e) :
      Trailing lone (.value (.object ms)) ('\x7b' :: (s ++ e) ++ ['\x7d'])
  | element {t : Tree} {g s g' : List Char} (hg : Dialect.strict.Gap g)
      (h : Trailing lone (.value t) s) (hg' : Dialect.strict.Gap g') :
      Trailing lone (.item (.element t)) (g ++ s ++ g')
  | member {key : List Char} {t : Tree} {g g₁ g₂ s g' : List Char} (hg : Dialect.strict.Gap g)
      (hkey : IsText key) (hg₁ : Dialect.strict.Gap g₁) (hg₂ : Dialect.strict.Gap g₂)
      (h : Trailing lone (.value t) s) (hg' : Dialect.strict.Gap g') :
      Trailing lone (.item (.member key t))
        (g ++ ('"' :: key ++ ['"']) ++ g₁ ++ [':'] ++ g₂ ++ s ++ g')
  | last {i : Item} {s : List Char} (h : Trailing lone (.item i) s) : Trailing lone (.items [i]) s
  | more {i : Item} {is : List Item} {s r : List Char} (h : Trailing lone (.item i) s)
      (hr : Trailing lone (.items is) r) : Trailing lone (.items (i :: is)) (s ++ ',' :: r)

/-- A text that is strict JSON but for such commas, and says `t`. -/
inductive WritesTrailing (lone : Bool) (t : Tree) : List Char → Prop where
  | value {g s g' : List Char} (hg : Dialect.strict.Gap g) (h : Trailing lone (.value t) s)
      (hg' : Dialect.strict.Gap g') : WritesTrailing lone t (g ++ s ++ g')

theorem isSpace_of_gap {g : List Char} (h : Dialect.strict.Gap g) : ∀ c ∈ g, isSpace c = true := by
  generalize hd : Dialect.strict = d at h
  induction h with
  | nil => simp
  | space hc _ ih => exact List.forall_mem_cons.mpr ⟨hc, ih hd⟩
  | line | block => cases hd

end Prototypal.Json

namespace Prototypal.Relaxed

open Json

/-! ### What a text was before its commas were dropped -/

/-- The text is at its end, or at a character that is not blank. -/
def Halts (y : List Char) : Prop := ∀ c ∈ y.head?, Text.isBlank c = false

/-- The text is at a closing bracket. -/
def Closing (y : List Char) : Prop := ∃ c ∈ y.head?, c = '\x7d' ∨ c = ']'

/-- Whatever comes behind it, `out` was a text of which `P` holds. -/
def Recovers (P : List Char → Prop) (out : List Char) : Prop :=
  ∀ src y, dropTrailing src = out ++ y → ∃ s src', src = s ++ src' ∧ dropTrailing src' = y ∧ P s

/-- The same up to a comma behind that text, where a closing bracket comes next. -/
def Restores (P : List Char → Prop) (out : List Char) : Prop :=
  ∀ src y, dropTrailing src = out ++ y → Halts y →
    ∃ s e src', src = s ++ e ++ src' ∧ dropTrailing src' = y ∧ P s ∧ Extra e ∧ (e = [] ∨ Closing y)

section

variable {P : List Char → Prop} {src out y : List Char} {c : Char}

theorem eq_nil_of_dropTrailing (h : dropTrailing src = []) : src = [] := by
  cases src with
  | nil => rfl
  | cons c src =>
    by_cases hc : c = '"'
    · rw [hc, dropTrailing] at h
      cases h
    · rw [dropTrailing_code hc] at h
      cases h

theorem exists_of_dropTrailing_cons (hquote : c ≠ '"') (h : dropTrailing src = c :: y) :
    ∃ src', dropTrailing src' = y ∧
      (src = c :: src' ∨ c = ' ' ∧ src = ',' :: src' ∧ closes src' = true) := by
  cases src with
  | nil => simp [dropTrailing] at h
  | cons d src =>
    by_cases hd : d = '"'
    · rw [hd, dropTrailing] at h
      exact absurd (List.cons.inj h).1.symm hquote
    · rw [dropTrailing_code hd] at h
      obtain ⟨hc, hy⟩ := List.cons.inj h
      refine ⟨src, hy, ?_⟩
      split at hc
      · next hcomma => exact .inr ⟨hc.symm, by rw [hcomma.1], hcomma.2⟩
      · exact .inl (by rw [hc])

/-- A character that is neither a space nor a quote was there before. -/
theorem exists_of_dropTrailing_char (hquote : c ≠ '"') (hspace : c ≠ ' ')
    (h : dropTrailing src = c :: y) : ∃ src', src = c :: src' ∧ dropTrailing src' = y := by
  obtain ⟨src', hy, hsrc | hsrc⟩ := exists_of_dropTrailing_cons hquote h
  · exact ⟨src', hsrc, hy⟩
  · exact absurd hsrc.1 hspace

theorem ne_of_isInert {d : Char} (hc : isInert c = true) (hd : isInert d = false) : c ≠ d := by
  rintro rfl
  rw [hc] at hd
  cases hd

theorem recovers_inert {s : List Char} (hs : ∀ c ∈ s, isInert c = true) : Recovers (· = s) s := by
  induction s with
  | nil => exact fun src _ h => ⟨[], src, rfl, h, rfl⟩
  | cons c s ih =>
    intro src y h
    obtain ⟨hc, hs⟩ := List.forall_mem_cons.mp hs
    obtain ⟨src₁, rfl, h₁⟩ := exists_of_dropTrailing_char (ne_of_isInert hc (by decide))
      (ne_of_isInert hc (by decide)) h
    obtain ⟨_, src', rfl, h', rfl⟩ := ih hs src₁ y h₁
    exact ⟨_, src', rfl, h', rfl⟩

theorem recovers_literal {s : List Char} (hs : IsText s) :
    Recovers (· = '"' :: s ++ ['"']) ('"' :: s ++ ['"']) := by
  intro src y h
  cases src with
  | nil => simp [dropTrailing] at h
  | cons d src =>
    by_cases hd : d = '"'
    · subst hd
      have hend : (splitLiteral src).2 = [] → dropTrailing (splitLiteral src).2 = [] := by
        intro hs
        rw [hs, dropTrailing]
      rw [dropTrailing, List.cons_append, List.cons_append, List.cons_append] at h
      obtain ⟨-, h⟩ := List.cons.inj h
      -- both sides are cut at the closing quote
      have hcut := congrArg splitLiteral h
      rw [splitLiteral_append hend, List.append_assoc, List.singleton_append,
        splitLiteral_of_isText hs] at hcut
      obtain ⟨hfst, hsnd⟩ := Prod.mk.inj hcut
      refine ⟨_, (splitLiteral src).2, ?_, hsnd, rfl⟩
      rw [List.cons_append, List.cons_append, ← hfst, splitLiteral_fst_append_snd]
    · rw [dropTrailing_code hd, List.cons_append, List.cons_append] at h
      obtain ⟨hc, -⟩ := List.cons.inj h
      split at hc
      · cases hc
      · exact absurd hc hd

/-! ### Gaps and brackets -/

theorem closes_gap {g : List Char} (hg : Dialect.strict.Gap g) (s : List Char) :
    closes (g ++ s) = closes s := by
  have hall := isSpace_of_gap hg
  clear hg
  induction g with
  | nil => rfl
  | cons c g ih =>
    obtain ⟨hc, hg⟩ := List.forall_mem_cons.mp hall
    rw [List.cons_append, closes, if_pos (isBlank_of_isSpace hc), ih hg]

theorem closing_of_closes (hy : Halts (dropTrailing src)) (h : closes src = true) :
    Closing (dropTrailing src) := by
  cases src with
  | nil => cases h
  | cons d src =>
    by_cases hd : d = '"'
    · subst hd
      simp [closes, Text.isBlank] at h
    · have hcomma : ¬ (d = ',' ∧ closes src = true) := by
        rintro ⟨rfl, -⟩
        simp [closes, Text.isBlank] at h
      rw [dropTrailing_code hd, if_neg hcomma] at hy ⊢
      have hblank := hy d rfl
      rw [closes, if_neg (by simp [hblank])] at h
      exact ⟨d, rfl, by simpa using h⟩

/-- **A gap was a gap**, or a closing bracket comes behind it and one of its spaces was a comma. -/
theorem restores_gap {g : List Char} (hg : Dialect.strict.Gap g) :
    Restores Dialect.strict.Gap g := by
  have hall := isSpace_of_gap hg
  clear hg
  induction g with
  | nil => exact fun src _ h _ => ⟨[], [], src, rfl, h, .nil, .none, .inl rfl⟩
  | cons c g ih =>
    intro src y h hy
    obtain ⟨hc, hg⟩ := List.forall_mem_cons.mp hall
    have hquote : c ≠ '"' := by
      rintro rfl
      simp [isSpace] at hc
    obtain ⟨src₁, h₁, hsrc⟩ := exists_of_dropTrailing_cons hquote h
    obtain ⟨g', e, src', rfl, hy', hg', he, hclosing⟩ := ih hg src₁ y h₁ hy
    rcases hsrc with rfl | ⟨-, rfl, hcloses⟩
    · exact ⟨c :: g', e, src', rfl, hy', .space hc hg', he, hclosing⟩
    · rw [List.append_assoc, closes_gap hg'] at hcloses
      cases he with
      | none =>
        refine ⟨[], ',' :: g', src', by simp, hy', .nil, .comma hg', .inr ?_⟩
        subst hy'
        exact closing_of_closes hy hcloses
      | comma hg'' =>
        -- the first of two commas has the second behind it, and no bracket
        simp [closes, Text.isBlank] at hcloses

/-- Where something else than a closing bracket comes next, no comma was there. -/
theorem Restores.open (hr : Restores P out) (hy : Halts y) (hopen : ¬ Closing y)
    (h : dropTrailing src = out ++ y) :
    ∃ s src', src = s ++ src' ∧ dropTrailing src' = y ∧ P s := by
  obtain ⟨s, e, src', rfl, hy', hs, -, he | he⟩ := hr src y h hy
  · exact ⟨s, src', by rw [he, List.append_nil], hy', hs⟩
  · exact absurd he hopen

/-- Between brackets there may have been a comma in the end. -/
theorem Restores.brackets {o : Char} (hr : Restores P out) (ho : isInert o = true)
    (hc : c = '\x7d' ∨ c = ']') :
    Recovers (fun s => ∃ u e, s = o :: (u ++ e) ++ [c] ∧ P u ∧ Extra e) (o :: out ++ [c]) := by
  intro src y h
  have hhalts : Halts (c :: y) := by
    rintro d ⟨⟩
    rcases hc with rfl | rfl <;> rfl
  have hquote : c ≠ '"' := by rcases hc with rfl | rfl <;> decide
  have hspace : c ≠ ' ' := by rcases hc with rfl | rfl <;> decide
  rw [List.append_assoc, List.cons_append, List.singleton_append] at h
  obtain ⟨src₁, rfl, h₁⟩ := exists_of_dropTrailing_char (ne_of_isInert ho (by decide))
    (ne_of_isInert ho (by decide)) h
  obtain ⟨u, e, src₂, rfl, h₂, hu, he, -⟩ := hr src₁ _ h₁ hhalts
  obtain ⟨src', rfl, hy⟩ := exists_of_dropTrailing_char hquote hspace h₂
  exact ⟨o :: (u ++ e) ++ [c], src', by simp, hy, u, e, rfl, hu, he⟩

end

/-! ### Values -/

/-- The text begins with a value: with something else than space, a comma or a closing bracket. -/
def Begins (s : List Char) : Prop := ∃ c r, s = c :: r ∧ (isInert c = true ∨ c = '"')

theorem begins_value {d : Dialect} {t : Tree} {s : List Char} (h : Spells d (.value t) s)
    (y : List Char) : Begins (s ++ y) := by
  cases h with
  | null | true | false => exact ⟨_, _, rfl, .inl rfl⟩
  | number hs =>
    obtain ⟨hne, hall⟩ := isInert_of_isNumber hs
    cases s with
    | nil => exact absurd rfl hne
    | cons c s => exact ⟨c, s ++ y, rfl, .inl (hall c List.mem_cons_self)⟩
  | text hs => exact ⟨_, _, rfl, .inr rfl⟩
  | emptyArray | array | emptyObject | object => exact ⟨_, _, rfl, .inl (by decide)⟩

theorem Begins.halts {s : List Char} (h : Begins s) : Halts s := by
  obtain ⟨c, r, rfl, hc⟩ := h
  rintro d ⟨⟩
  rcases hc with hc | rfl
  · cases hblank : Text.isBlank c with
    | false => rfl
    | true => simp [isInert, isPlain, hblank] at hc
  · rfl

theorem Begins.not_closing {s : List Char} (h : Begins s) : ¬ Closing s := by
  obtain ⟨c, r, rfl, hc⟩ := h
  rintro ⟨d, ⟨⟩, hd⟩
  rcases hc with hc | rfl
  · rcases hd with rfl | rfl <;> exact absurd hc (by decide)
  · rcases hd with hd | hd <;> cases hd

/-- A gap before a value, or before a string or colon, was a gap. -/
theorem Begins.exists_gap {src g y : List Char} (hy : Begins y) (hg : Dialect.strict.Gap g)
    (h : dropTrailing src = g ++ y) :
    ∃ g' src', src = g' ++ src' ∧ dropTrailing src' = y ∧ Dialect.strict.Gap g' :=
  (restores_gap hg).open hy.halts hy.not_closing h

/-- What a phrase was: a value just that, and items maybe with a comma behind them. -/
def Restored (p : Phrase) (out : List Char) : Prop :=
  match p with
  | .value _ => Recovers (Trailing true p) out
  | _ => Restores (Trailing true p) out

/-- **What a phrase was**: the same phrase, with commas before closing brackets. -/
theorem restored_spells {p : Phrase} {out : List Char} (h : Spells .strict p out) :
    Restored p out := by
  have hinert : ∀ {t s}, Spells .strict (.value t) s → (∀ c ∈ s, isInert c = true) →
      Restored (.value t) s := by
    intro t s hs hall src y h
    obtain ⟨_, src', hsrc, hy, rfl⟩ := recovers_inert hall src y h
    exact ⟨_, src', hsrc, hy, .strict hs⟩
  induction h with
  | null => exact hinert .null (List.all_eq_true.mp rfl)
  | true => exact hinert .true (List.all_eq_true.mp rfl)
  | false => exact hinert .false (List.all_eq_true.mp rfl)
  | number hs => exact hinert (.number hs) (isInert_of_isNumber hs).2
  | text hs =>
    intro src y h
    obtain ⟨_, src', hsrc, hy, rfl⟩ := recovers_literal hs src y h
    exact ⟨_, src', hsrc, hy, .strict (.text hs)⟩
  | emptyArray hg =>
    intro src y h
    obtain ⟨_, src', hsrc, hy, g, e, rfl, hg, he⟩ :=
      (restores_gap hg).brackets (by decide) (.inr rfl) src y h
    refine ⟨_, src', hsrc, hy, ?_⟩
    cases he with
    | none => exact .strict (by rw [List.append_nil]; exact .emptyArray hg)
    | comma hg' => exact .loneArray rfl hg hg'
  | emptyObject hg =>
    intro src y h
    obtain ⟨_, src', hsrc, hy, g, e, rfl, hg, he⟩ :=
      (restores_gap hg).brackets (by decide) (.inl rfl) src y h
    refine ⟨_, src', hsrc, hy, ?_⟩
    cases he with
    | none => exact .strict (by rw [List.append_nil]; exact .emptyObject hg)
    | comma hg' => exact .loneObject rfl hg hg'
  | array _ he ih =>
    cases he
    intro src y h
    rw [List.append_nil] at h
    obtain ⟨_, src', hsrc, hy, s, e, rfl, hs, he⟩ :=
      Restores.brackets ih (by decide) (.inr rfl) src y h
    exact ⟨_, src', hsrc, hy, .array hs he⟩
  | object _ he ih =>
    cases he
    intro src y h
    rw [List.append_nil] at h
    obtain ⟨_, src', hsrc, hy, s, e, rfl, hs, he⟩ :=
      Restores.brackets ih (by decide) (.inl rfl) src y h
    exact ⟨_, src', hsrc, hy, .object hs he⟩
  | element hg hv hg' ih =>
    intro src y h hy
    rw [List.append_assoc, List.append_assoc] at h
    obtain ⟨g, src₁, rfl, h₁, hg⟩ := (begins_value hv _).exists_gap hg h
    obtain ⟨s, src₂, rfl, h₂, hs⟩ := ih _ _ h₁
    obtain ⟨g', e, src', rfl, hy', hg', he, hclosing⟩ := restores_gap hg' _ _ h₂ hy
    exact ⟨g ++ s ++ g', e, src', by simp, hy', .element hg hs hg', he, hclosing⟩
  | @member key _ _ _ _ _ _ hg hkey hg₁ hg₂ hv hg' ih =>
    intro src y h hy
    have hquote : ∀ r, Begins ('"' :: key ++ r) := fun r => ⟨_, _, rfl, .inr rfl⟩
    have hcolon : ∀ r, Begins (':' :: r) := fun r => ⟨_, _, rfl, .inl (by decide)⟩
    simp only [List.append_assoc] at h
    obtain ⟨g, src₁, rfl, h₁, hg⟩ := (hquote _).exists_gap hg h
    rw [← List.append_assoc _ ['"']] at h₁
    obtain ⟨_, src₂, rfl, h₂, rfl⟩ := recovers_literal hkey _ _ h₁
    obtain ⟨g₁, src₃, rfl, h₃, hg₁⟩ := (hcolon _).exists_gap hg₁ h₂
    obtain ⟨src₄, rfl, h₄⟩ := exists_of_dropTrailing_char (by decide) (by decide) h₃
    obtain ⟨g₂, src₅, rfl, h₅, hg₂⟩ := (begins_value hv _).exists_gap hg₂ h₄
    obtain ⟨s, src₆, rfl, h₆, hs⟩ := ih _ _ h₅
    obtain ⟨g', e, src', rfl, hy', hg', he, hclosing⟩ := restores_gap hg' _ _ h₆ hy
    exact ⟨_, e, src', by simp, hy', .member hg hkey hg₁ hg₂ hs hg', he, hclosing⟩
  | last _ ih =>
    intro src y h hy
    obtain ⟨s, e, src', hsrc, hy', hs, he, hclosing⟩ := ih src y h hy
    exact ⟨s, e, src', hsrc, hy', .last hs, he, hclosing⟩
  | more _ _ ih ihr =>
    intro src y h hy
    rw [List.append_assoc, List.cons_append] at h
    have hhalts : ∀ r, Halts (',' :: r) := by
      rintro r d ⟨⟩
      rfl
    have hopen : ∀ r, ¬ Closing (',' :: r) := by
      rintro r ⟨d, ⟨⟩, hd⟩
      rcases hd with hd | hd <;> cases hd
    obtain ⟨s, src₁, rfl, h₁, hs⟩ := Restores.open ih (hhalts _) (hopen _) h
    obtain ⟨src₂, rfl, h₂⟩ := exists_of_dropTrailing_char (by decide) (by decide) h₁
    obtain ⟨r, e, src', rfl, hy', hr, he, hclosing⟩ := ihr src₂ y h₂ hy
    exact ⟨s ++ ',' :: r, e, src', by simp, hy', .more hs hr, he, hclosing⟩

theorem writesTrailing_of_dropTrailing {t : Tree} {text : List Char}
    (h : Writes .strict t (dropTrailing text)) : WritesTrailing true t text := by
  generalize hout : dropTrailing text = out at h
  obtain ⟨hg, hv, hg'⟩ := h
  cases hg' with
  | gap hg' =>
    rw [List.append_assoc] at hout
    obtain ⟨g, src₁, rfl, h₁, hg⟩ := (begins_value hv _).exists_gap hg hout
    obtain ⟨s, src₂, rfl, h₂, hs⟩ := restored_spells hv _ _ h₁
    obtain ⟨g', src', rfl, h', hg'⟩ :=
      (restores_gap hg').open (y := []) nofun nofun (h₂.trans (List.append_nil _).symm)
    rw [eq_nil_of_dropTrailing h', List.append_nil, ← List.append_assoc]
    exact .value hg hs hg'

/-! ### What is written for such commas -/

theorem tail_of_extra {e : List Char} (h : Extra e) : Dialect.relaxed.Tail e := by
  have hgap : ∀ {g}, Dialect.strict.Gap g → Dialect.relaxed.Gap g := by
    intro g hg
    have hall := isSpace_of_gap hg
    clear hg
    induction g with
    | nil => exact .nil
    | cons c g ih =>
      obtain ⟨hc, hg⟩ := List.forall_mem_cons.mp hall
      exact .space hc (ih hg)
  cases h with
  | none => exact .nil
  | comma hg => exact .comma (hgap hg)

theorem carries_trailing {lone : Bool} {p : Phrase} {s : List Char} (h : Trailing lone p s) :
    ∃ out, Spells .strict p out ∧ Carries s out := by
  have hsquare : Carries ['['] ['['] := carries_inert (by decide)
  have hcurly : Carries ['\x7b'] ['\x7b'] := carries_inert (by decide)
  have hkeeps : ∀ {g}, Dialect.strict.Gap g → Keeps g g := by
    intro g hg
    obtain ⟨out, -, hkeeps, hsame⟩ := keeps_gap hg
    rwa [hsame rfl] at hkeeps
  induction h with
  | strict h =>
    obtain ⟨out, hout, hcarries, -⟩ := carries_spells h
    exact ⟨out, hout, hcarries⟩
  | loneArray _ hg hg' =>
    obtain ⟨x, hx, htail, -⟩ :=
      (hsquare.keeps (hkeeps hg)).tail (tail_of_extra (.comma hg')) (.inr rfl)
    refine ⟨_, .emptyArray (gap_append hg hx), ?_⟩
    simpa using htail
  | loneObject _ hg hg' =>
    obtain ⟨x, hx, htail, -⟩ :=
      (hcurly.keeps (hkeeps hg)).tail (tail_of_extra (.comma hg')) (.inl rfl)
    refine ⟨_, .emptyObject (gap_append hg hx), ?_⟩
    simpa using htail
  | array _ he ih =>
    obtain ⟨out, hout, hcarries⟩ := ih
    obtain ⟨x, hx, htail, -⟩ := (hsquare.append hcarries).tail (tail_of_extra he) (.inr rfl)
    refine ⟨_, .array (spells_items_append_gap hx hout) .nil, ?_⟩
    simpa using htail
  | object _ he ih =>
    obtain ⟨out, hout, hcarries⟩ := ih
    obtain ⟨x, hx, htail, -⟩ := (hcurly.append hcarries).tail (tail_of_extra he) (.inl rfl)
    refine ⟨_, .object (spells_items_append_gap hx hout) .nil, ?_⟩
    simpa using htail
  | element hg _ hg' ih =>
    obtain ⟨out, hout, hcarries⟩ := ih
    exact ⟨_, .element hg hout hg', ((hkeeps hg).carries hcarries).keeps (hkeeps hg')⟩
  | member hg hkey hg₁ hg₂ _ hg' ih =>
    obtain ⟨out, hout, hcarries⟩ := ih
    exact ⟨_, .member hg hkey hg₁ hg₂ hout hg', carries_member (hkeeps hg) hkey (hkeeps hg₁)
      (hkeeps hg₂) hcarries (hkeeps hg')⟩
  | last _ ih =>
    obtain ⟨out, hout, hcarries⟩ := ih
    exact ⟨out, .last hout, hcarries⟩
  | more _ _ ih ihr =>
    obtain ⟨out, hout, hcarries⟩ := ih
    obtain ⟨out', hout', hcarries'⟩ := ihr
    exact ⟨_, .more hout hout', hcarries.more hcarries'⟩

theorem writes_of_writesTrailing {lone : Bool} {t : Tree} {text : List Char}
    (h : WritesTrailing lone t text) : Writes .strict t (normalize text) := by
  obtain ⟨hg, h, hg'⟩ := h
  obtain ⟨x, hx, hkeeps, -⟩ := keeps_gap hg
  obtain ⟨out, hout, hcarries⟩ := carries_trailing h
  obtain ⟨x', hx', hlast, -⟩ := written_lastGap (.gap hg')
  rw [normalize_of_carries (hkeeps.carries hcarries) hlast]
  exact .value hx hout (.gap hx')

/-! ### The texts that are forgiven -/

/-- **What is forgiven.**  A text without comments is normalized to strict JSON if and only if it
is strict JSON itself, but that each array or object may have one comma before its closing bracket:
behind its last item, or alone if it has none.  The two say the same. -/
theorem normalize_strict_iff (text : List Char) (h : hasMark text = false) (t : Tree) :
    Writes .strict t (normalize text) ↔ WritesTrailing true t text := by
  constructor
  · intro hwrites
    rw [normalize_eq_dropTrailing, stripComments_of_not_hasMark h] at hwrites
    exact writesTrailing_of_dropTrailing hwrites
  · exact writes_of_writesTrailing

/-- An array with a comma behind its last element, and in it an empty one with a comma alone. -/
def spareCommas : List Char := "[[,],0 ,]".toList

theorem normalize_strict_iff_spareCommas :
    hasMark spareCommas = false ∧ normalize spareCommas = "[[ ],0  ]".toList ∧
    WritesTrailing true (.array [.array [], .number ['0']]) spareCommas := by
  have hmark : hasMark spareCommas = false := by decide +kernel
  have hnormal : normalize spareCommas = "[[ ],0  ]".toList := by decide +kernel
  have hspace : Dialect.strict.Gap [' '] := .space (by decide) .nil
  have hzero : Spells .strict (.value (.number ['0'])) ['0'] :=
    .number (.parts (.inl rfl) .zero .none .none)
  have hitems := Spells.more (.element .nil (.emptyArray hspace) .nil)
    (.last (.element .nil hzero (gap_append hspace hspace)))
  have hwrites : Writes .strict (.array [.array [], .number ['0']]) (normalize spareCommas) := by
    rw [hnormal]
    exact .value .nil (@Spells.array .strict [.array [], .number ['0']] _ _ hitems .nil) (.gap .nil)
  exact ⟨hmark, hnormal, (normalize_strict_iff spareCommas hmark _).mp hwrites⟩

/-! ### A comma alone -/

theorem cons_of_gap_append {g s : List Char} (hg : Dialect.strict.Gap g)
    (hs : ∃ c r, s = c :: r ∧ c ≠ ',') : ∃ c r, g ++ s = c :: r ∧ c ≠ ',' := by
  cases hg with
  | nil => exact hs
  | space hc _ =>
    refine ⟨_, _, rfl, ?_⟩
    rintro rfl
    exact absurd hc (by decide)

/-- Nothing that is spelled begins with a comma. -/
theorem cons_of_trailing {lone : Bool} {p : Phrase} {s : List Char} (h : Trailing lone p s) :
    ∃ c r, s = c :: r ∧ c ≠ ',' := by
  induction h with
  | strict hv =>
    obtain ⟨c, r, hs, hc⟩ := begins_value hv []
    refine ⟨c, r, by rwa [List.append_nil] at hs, ?_⟩
    rcases hc with hc | rfl
    · exact ne_of_isInert hc (by decide)
    · decide
  | loneArray | array | loneObject | object => exact ⟨_, _, rfl, by decide⟩
  | element hg _ _ ih =>
    obtain ⟨c, r, rfl, hc⟩ := ih
    rw [List.append_assoc]
    exact cons_of_gap_append hg ⟨c, _, rfl, hc⟩
  | member hg =>
    simp only [List.append_assoc]
    exact cons_of_gap_append hg ⟨'"', _, rfl, by decide⟩
  | last _ ih => exact ih
  | more _ _ ih =>
    obtain ⟨c, r, rfl, hc⟩ := ih
    exact ⟨c, _, rfl, hc⟩

theorem trailing_of_spells {lone : Bool} {p : Phrase} {s : List Char} (h : Spells .strict p s) :
    Trailing lone p s := by
  induction h with
  | null => exact .strict .null
  | true => exact .strict .true
  | false => exact .strict .false
  | number hs => exact .strict (.number hs)
  | text hs => exact .strict (.text hs)
  | emptyArray hg => exact .strict (.emptyArray hg)
  | emptyObject hg => exact .strict (.emptyObject hg)
  | array h he => exact .strict (.array h he)
  | object h he => exact .strict (.object h he)
  | element hg _ hg' ih => exact .element hg ih hg'
  | member hg hkey hg₁ hg₂ _ hg' ih => exact .member hg hkey hg₁ hg₂ ih hg'
  | last _ ih => exact .last ih
  | more _ _ ih ihr => exact .more ih ihr

/-- An empty object but for a comma. -/
def loneComma : List Char := ['\x7b', ',', '\x7d']

theorem not_writesTrailing_loneComma (t : Tree) : ¬ WritesTrailing false t loneComma := by
  intro h
  rw [loneComma] at h
  generalize htext : ['\x7b', ',', '\x7d'] = text at h
  obtain ⟨hg, h, hg'⟩ := h
  cases hg with
  | space hc =>
    rw [← (List.cons.inj htext).1] at hc
    exact absurd hc (by decide)
  | nil =>
    have hbody : ∀ u, (∃ c r, u = c :: r ∧ c ≠ ',') → [',', '\x7d'] ≠ u := by
      rintro _ ⟨c, r, rfl, hc⟩ hu
      exact hc (List.cons.inj hu).1.symm
    cases h with
    | loneArray hlone | loneObject hlone => cases hlone
    | array => cases htext
    | object h _ =>
      obtain ⟨c, r, rfl, hc⟩ := cons_of_trailing h
      exact hbody _ ⟨c, _, rfl, hc⟩ (List.cons.inj htext).2
    | strict h =>
      cases h with
      | null | true | false | text | emptyArray | array => cases htext
      | number hs =>
        have hcomma : ',' ∈ ['\x7b', ',', '\x7d'] := by simp
        rw [htext] at hcomma
        rcases List.mem_append.mp hcomma with hcomma | hcomma
        · exact absurd ((isInert_of_isNumber hs).2 ',' hcomma) (by decide)
        · exact absurd (isSpace_of_gap hg' ',' hcomma) (by decide)
      | emptyObject hg =>
        rw [List.nil_append, List.append_assoc, List.cons_append, List.singleton_append] at htext
        exact hbody _ (cons_of_gap_append hg ⟨'\x7d', _, rfl, by decide⟩) (List.cons.inj htext).2
      | object h _ =>
        obtain ⟨c, r, rfl, hc⟩ := cons_of_trailing (trailing_of_spells h : Trailing false _ _)
        exact hbody _ ⟨c, _, rfl, hc⟩ (List.cons.inj htext).2

/-- **A comma alone is forgiven too**, though it is behind no item. -/
theorem normalize_strict_loneComma :
    hasMark loneComma = false ∧ Writes .strict (.object []) (normalize loneComma) ∧
      ∀ t, ¬ WritesTrailing false t loneComma := by
  have hmark : hasMark loneComma = false := by decide +kernel
  have hnormal : normalize loneComma = ['\x7b', ' ', '\x7d'] := by decide +kernel
  refine ⟨hmark, ?_, not_writesTrailing_loneComma⟩
  rw [hnormal]
  exact .value .nil (.emptyObject (.space (by decide) .nil)) (.gap .nil)

end Prototypal.Relaxed
