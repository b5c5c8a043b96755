import Prototypal.Proofs.Following

/-!
# Prototypal — Proofs — Spacing

Which spaces of a text of settings matter.  Between a mark and anything else there may be any space
or none (`Alike`).  Two solid characters with space between them never stand in a text that is read
(`Torn`).

Both are relations that the reader tracks, so the reader of projects follows them:

* `readDocument_alike`: texts alike but for their spaces give the same project, or none.
* `not_torn_of_readDocument`: no text with a torn word or number gives a project.
-/

namespace Prototypal.Json

open Settings

theorem skipSpace_space {c : Char} (hc : isSpace c = true) (s : List Char) :
    skipSpace (c :: s) = skipSpace s :=
  List.dropWhile_cons_of_pos hc

theorem skipSpace_of_not_isSpace {c : Char} (hc : isSpace c = false) (s : List Char) :
    skipSpace (c :: s) = c :: s :=
  List.dropWhile_cons_of_neg (by simp [hc])

theorem isSolid_of_isSpace {c : Char} (hc : isSpace c = true) : isSolid c = false := by
  simp [isSolid, hc]

theorem Place.after_ne_quoted {c : Char} (hc : c ≠ '"') : Place.after c ≠ .quoted := by
  rw [Place.after, if_neg hc]
  split <;> decide

theorem Place.after_space {c : Char} (hc : isSpace c = true) : Place.after c = .apart := by
  have hne : c ≠ '"' := fun e => by simp [e, isSpace] at hc
  rw [Place.after, if_neg hne, isSolid_of_isSpace hc]
  rfl

/-! ### Texts that differ in their spaces -/

/-- Texts from a given place on that are alike but for spaces.  Behind a solid character, one text
may have space where the other has none only if no solid character comes next. -/
inductive Alike : Place → List Char → List Char → Prop
  | nil {p} : Alike p [] []
  | char {p c s t} : p ≠ .quoted → isSpace c = false → Alike (.after c) s t →
      Alike p (c :: s) (c :: t)
  | left {p c s t} : p ≠ .quoted → isSpace c = true →
      (p = .joined → ∀ d ∈ t.head?, isSolid d = false) → Alike .apart s t → Alike p (c :: s) t
  | right {p c s t} : p ≠ .quoted → isSpace c = true →
      (p = .joined → ∀ d ∈ s.head?, isSolid d = false) → Alike .apart s t → Alike p s (c :: t)
  | plain {c s t} : c ≠ '"' → c ≠ '\\' → Alike .quoted s t → Alike .quoted (c :: s) (c :: t)
  | close {s t} : Alike .apart s t → Alike .quoted ('"' :: s) ('"' :: t)
  | escape {c s t} : Alike .quoted s t → Alike .quoted ('\\' :: c :: s) ('\\' :: c :: t)
  | slash : Alike .quoted ['\\'] ['\\']

namespace Alike

variable {p : Place} {s t r : List Char} {c : Char}

theorem symm (h : Alike p s t) : Alike p t s := by
  induction h with
  | nil => exact .nil
  | char hp hc _ ih => exact .char hp hc ih
  | left hp hc hd _ ih => exact .right hp hc hd ih
  | right hp hc hd _ ih => exact .left hp hc hd ih
  | plain hquote hslash _ ih => exact .plain hquote hslash ih
  | close _ ih => exact .close ih
  | escape _ ih => exact .escape ih
  | slash => exact .slash

/-- The same space on both sides. -/
theorem space (hp : p ≠ .quoted) (hc : isSpace c = true) (h : Alike .apart s t) :
    Alike p (c :: s) (c :: t) := by
  refine .left hp hc (fun _ d hd => ?_) (.right (by decide) hc (fun h => absurd h (by decide)) h)
  obtain rfl : c = d := by simpa using hd
  exact isSolid_of_isSpace hc

theorem spaces {l : List Char} (hl : ∀ c ∈ l, isSpace c = true) (h : Alike .apart s t) :
    Alike .apart (l ++ s) (l ++ t) := by
  induction l with
  | nil => exact h
  | cons c l ih =>
    obtain ⟨hc, hl⟩ := List.forall_mem_cons.mp hl
    exact .space (by decide) hc (ih hl)

/-- Outside strings both texts go on with the same character. -/
theorem next (h : Alike p s t) (hp : p ≠ .quoted) (hs : skipSpace s = c :: r) :
    ∃ r', skipSpace t = c :: r' ∧ Alike (.after c) r r' := by
  induction h with
  | nil => cases hs
  | char _ hc h _ =>
    rw [skipSpace_of_not_isSpace hc] at hs
    obtain ⟨rfl, rfl⟩ := List.cons.inj hs
    exact ⟨_, skipSpace_of_not_isSpace hc _, h⟩
  | left _ hc _ _ ih =>
    rw [skipSpace_space hc] at hs
    exact ih (by decide) hs
  | right _ hc _ _ ih =>
    rw [skipSpace_space hc]
    exact ih (by decide) hs
  | plain | close | escape | slash => exact absurd rfl hp

theorem skipSpace_eq_nil (h : Alike p s t) (hp : p ≠ .quoted) (hs : skipSpace s = []) :
    skipSpace t = [] := by
  cases ht : skipSpace t with
  | nil => rfl
  | cons c r =>
    obtain ⟨r', hr', -⟩ := h.symm.next hp ht
    rw [hs] at hr'
    cases hr'

/-- Behind a solid character, another stands on both sides or on neither. -/
theorem solid (h : Alike .joined (c :: s) t) (hc : isSolid c = true) :
    ∃ t', t = c :: t' ∧ Alike .joined s t' := by
  cases h with
  | char _ _ h => exact ⟨_, rfl, Place.after_solid hc ▸ h⟩
  | left _ hspace _ _ => simp [isSolid_of_isSpace hspace] at hc
  | right _ _ hd _ => simp [hd rfl c rfl] at hc

theorem tracks : Tracks Alike where
  next h hs := h.next (by decide) hs
  mark h hs _ := h.next (by decide) hs
  solid h hc := h.solid hc
  head h hc := by
    obtain ⟨s', hs', -⟩ := h.symm.solid hc
    exact ⟨s', hs'⟩
  cons hp hc h := .char hp hc h
  plain h hquote hslash := by
    cases h with
    | char hp | left hp | right hp => exact absurd rfl hp
    | plain _ _ h => exact ⟨_, rfl, h⟩
    | close => exact absurd rfl hquote
    | escape | slash => exact absurd rfl hslash
  close h := by
    cases h with
    | char hp | left hp | right hp => exact absurd rfl hp
    | plain hquote => exact absurd rfl hquote
    | close h => exact ⟨_, rfl, h⟩
  escape h := by
    cases h with
    | char hp | left hp | right hp => exact absurd rfl hp
    | plain _ hslash => exact absurd rfl hslash
    | escape h => exact ⟨_, rfl, h⟩

end Alike

/-! ### Torn words and numbers -/

/-- A text from a given place on in which, outside strings, only space stands between two solid
characters; the first may be the one before the text. -/
inductive Torn : Place → List Char → Prop
  | here {c d s r} : isSpace c = true → skipSpace s = d :: r → isSolid d = true →
      Torn .joined (c :: s)
  | char {p c s} : p ≠ .quoted → isSpace c = false → Torn (.after c) s → Torn p (c :: s)
  | space {p c s} : p ≠ .quoted → isSpace c = true → Torn .apart s → Torn p (c :: s)
  | plain {c s} : c ≠ '"' → c ≠ '\\' → Torn .quoted s → Torn .quoted (c :: s)
  | close {s} : Torn .apart s → Torn .quoted ('"' :: s)
  | escape {c s} : Torn .quoted s → Torn .quoted ('\\' :: c :: s)

namespace Torn

variable {p : Place} {s r : List Char} {c : Char}

theorem spaces {l : List Char} (hl : ∀ c ∈ l, isSpace c = true) (h : Torn .apart s) :
    Torn .apart (l ++ s) := by
  induction l with
  | nil => exact h
  | cons c l ih =>
    obtain ⟨hc, hl⟩ := List.forall_mem_cons.mp hl
    exact .space (by decide) hc (ih hl)

/-- What is torn lies ahead, unless it is right here. -/
theorem next (h : Torn p s) (hp : p ≠ .quoted) (hs : skipSpace s = c :: r)
    (hc : p = .joined → isSolid c = false) : Torn (.after c) r := by
  induction h with
  | here hspace hd hsolid =>
    rw [skipSpace_space hspace, hd] at hs
    obtain ⟨rfl, -⟩ := List.cons.inj hs
    simp [hc rfl] at hsolid
  | char _ hspace h _ =>
    rw [skipSpace_of_not_isSpace hspace] at hs
    obtain ⟨rfl, rfl⟩ := List.cons.inj hs
    exact h
  | space _ hspace _ ih =>
    rw [skipSpace_space hspace] at hs
    exact ih (by decide) hs fun h => absurd h (by decide)
  | plain | close | escape => exact absurd rfl hp

theorem skipSpace_ne_nil (h : Torn p s) (hp : p ≠ .quoted) : skipSpace s ≠ [] := by
  induction h with
  | here hspace hd _ =>
    rw [skipSpace_space hspace, hd]
    exact List.cons_ne_nil _ _
  | char _ hspace =>
    rw [skipSpace_of_not_isSpace hspace]
    exact List.cons_ne_nil _ _
  | space _ hspace _ ih =>
    rw [skipSpace_space hspace]
    exact ih (by decide)
  | plain | close | escape => exact absurd rfl hp

theorem tracks : Tracks fun p s t => s = t ∧ Torn p s where
  next := by
    rintro s _ r c ⟨rfl, h⟩ hs
    exact ⟨r, hs, rfl, h.next (by decide) hs fun h => absurd h (by decide)⟩
  mark := by
    rintro s _ r c ⟨rfl, h⟩ hs hc
    exact ⟨r, hs, rfl, h.next (by decide) hs fun _ => hc⟩
  solid := by
    rintro s _ c ⟨rfl, h⟩ hc
    cases h with
    | here hspace | space _ hspace => simp [isSolid_of_isSpace hspace] at hc
    | char _ _ h => exact ⟨s, rfl, rfl, Place.after_solid hc ▸ h⟩
  head := by
    rintro s t c ⟨rfl, -⟩ -
    exact ⟨t, rfl⟩
  cons := by
    rintro p s _ c hp hc ⟨rfl, h⟩
    exact ⟨rfl, .char hp hc h⟩
  plain := by
    rintro s _ c ⟨rfl, h⟩ hquote hslash
    cases h with
    | char hp | space hp => exact absurd rfl hp
    | plain _ _ h => exact ⟨s, rfl, rfl, h⟩
    | close => exact absurd rfl hquote
    | escape => exact absurd rfl hslash
  close := by
    rintro s _ ⟨rfl, h⟩
    cases h with
    | char hp | space hp => exact absurd rfl hp
    | plain hquote => exact absurd rfl hquote
    | close h => exact ⟨s, rfl, rfl, h⟩
  escape := by
    rintro s _ c ⟨rfl, h⟩
    cases h with
    | char hp | space hp => exact absurd rfl hp
    | plain _ hslash => exact absurd rfl hslash
    | escape h => exact ⟨s, rfl, rfl, h⟩

end Torn

/-! ### Documents -/

theorem readDocument_eq_ok {α : Type} {read : Nat → List Char → Reading α} {text : List Char}
    {a : α} : readDocument read text = .ok a ↔
      ∃ r, read maxNesting text = .ok (a, r) ∧ skipSpace r = [] := by
  unfold readDocument
  constructor
  · intro h
    split at h
    · cases h
    · next hr =>
      split at h
      · next hend =>
        cases h
        exact ⟨_, hr, hend⟩
      · cases h
  · rintro ⟨r, hr, hend⟩
    simp only [hr, hend]

variable {s t : List Char} {project : Project}

/-- **Texts alike but for their spaces give the same project, or none.** -/
theorem readDocument_alike (h : Alike .apart s t) :
    readDocument Project.read s = .ok project ↔ readDocument Project.read t = .ok project := by
  have follow : ∀ {s t}, Alike .apart s t → readDocument Project.read s = .ok project →
      readDocument Project.read t = .ok project := by
    intro s t h hs
    obtain ⟨r, hr, hend⟩ := readDocument_eq_ok.mp hs
    obtain ⟨r', hr', hpast⟩ := Alike.tracks.project maxNesting h hr
    have hend' : skipSpace r' = [] := by
      rcases hpast with hpast | hpast
      · exact hpast.skipSpace_eq_nil (by decide) hend
      · exact hpast.skipSpace_eq_nil (by decide) hend
    exact readDocument_eq_ok.mpr ⟨r', hr', hend'⟩
  exact ⟨follow h, follow h.symm⟩

/-- **No text with a torn word or number gives a project.** -/
theorem not_torn_of_readDocument (hs : readDocument Project.read s = .ok project) :
    ¬ Torn .apart s := by
  intro h
  obtain ⟨r, hr, hend⟩ := readDocument_eq_ok.mp hs
  obtain ⟨r', -, hpast⟩ := Torn.tracks.project maxNesting ⟨rfl, h⟩ hr
  rcases hpast with ⟨-, hpast⟩ | ⟨-, hpast⟩
  · exact hpast.skipSpace_ne_nil (by decide) hend
  · exact hpast.skipSpace_ne_nil (by decide) hend

end Prototypal.Json
