import Prototypal.Settings.Json.Nesting

/-!
# Prototypal — Proofs — Tracking

How the reader of settings goes through a text.  Outside strings a character is a space, a mark
(`isMark`), or solid (`isSolid`): part of a word or of a number.  Where the reader stands, what
comes next may join a solid character, stand apart, or be quoted (`Place`).

A relation between texts is tracked (`Tracks`) if it is kept by the steps that a reader takes: over
space to the next character, over a solid character that joins the one before, over a character of a
string.  Behind a solid character it need not be kept over space to another solid one, since no
reader goes on there.

* `Tracks.kept_text`, `Tracks.skipped_text`, `Tracks.number`: on texts in a relation that is
  tracked, what is read from the first as a string or a number is read from the second, and what is
  left is related.
-/

namespace Prototypal.Json

/-! ### Characters and places -/

/-- Whether a character outside strings is a bracket, a comma, a colon or a quote. -/
def isMark (c : Char) : Bool :=
  c = '[' || c = ']' || c = '\x7b' || c = '\x7d' || c = ',' || c = ':' || c = '"'

/-- Whether a character outside strings is part of a word or of a number. -/
def isSolid (c : Char) : Bool := !(isSpace c || isMark c)

/-- Where a reader stands: apart from any word or number, behind a character of one, or within a
string. -/
inductive Place where
  | apart
  | joined
  | quoted
deriving DecidableEq, Repr

/-- The place behind a character that is neither a space nor within a string. -/
def Place.after (c : Char) : Place :=
  if c = '"' then .quoted else if isSolid c then .joined else .apart

theorem Place.after_solid {c : Char} (hc : isSolid c = true) : Place.after c = .joined := by
  have hne : c ≠ '"' := fun e => by simp [e, isSolid, isMark] at hc
  rw [Place.after, if_neg hne, if_pos hc]

theorem isSpace_of_isSolid {c : Char} (hc : isSolid c = true) : isSpace c = false := by
  rw [isSolid, Bool.not_eq_true', Bool.or_eq_false_iff] at hc
  exact hc.1

theorem isSolid_of_isDigit {c : Char} (h : c.isDigit = true) : isSolid c = true := by
  have hne : ∀ d, d.isDigit = false → c ≠ d := fun d hd e => by simp [← e, h] at hd
  simp [isSolid, isSpace, isMark, hne ' ' (by decide), hne '\n' (by decide), hne '\t' (by decide),
    hne '\r' (by decide), hne '[' (by decide), hne ']' (by decide), hne '\x7b' (by decide),
    hne '\x7d' (by decide), hne ',' (by decide), hne ':' (by decide), hne '"' (by decide)]

/-- What a number starts with is solid. -/
theorem isSolid_of_number {c : Char} (h : (c = '-' || c.isDigit) = true) : isSolid c = true := by
  rw [Bool.or_eq_true, decide_eq_true_eq] at h
  rcases h with rfl | hdigit
  · decide
  · exact isSolid_of_isDigit hdigit

/-- Digits before the point are any but those that follow a leading zero. -/
theorem readWhole_eq_ok {use : Use} {s r ds : List Char} : readWhole use s = .ok (ds, r) ↔
    readDigits use s = .ok (ds, r) ∧ ∀ c s', s = '0' :: c :: s' → ¬ c.isDigit = true := by
  unfold readWhole
  split
  · next c s =>
    by_cases hc : c.isDigit = true <;> simp [readDigits, hc]
  · next hzero =>
    exact ⟨fun h => ⟨h, fun c s' e => absurd e (hzero c s')⟩, And.left⟩

/-- A relation that is kept by the steps of a reader. -/
structure Tracks (R : Place → List Char → List Char → Prop) : Prop where
  next : ∀ {s t r c}, R .apart s t → skipSpace s = c :: r →
    ∃ r', skipSpace t = c :: r' ∧ R (.after c) r r'
  mark : ∀ {s t r c}, R .joined s t → skipSpace s = c :: r → isSolid c = false →
    ∃ r', skipSpace t = c :: r' ∧ R (.after c) r r'
  solid : ∀ {s t c}, R .joined (c :: s) t → isSolid c = true → ∃ t', t = c :: t' ∧ R .joined s t'
  head : ∀ {s t c}, R .joined s (c :: t) → isSolid c = true → ∃ s', s = c :: s'
  cons : ∀ {p s t c}, p ≠ .quoted → isSpace c = false → R (.after c) s t → R p (c :: s) (c :: t)
  plain : ∀ {s t c}, R .quoted (c :: s) t → c ≠ '"' → c ≠ '\\' → ∃ t', t = c :: t' ∧ R .quoted s t'
  close : ∀ {s t}, R .quoted ('"' :: s) t → ∃ t', t = '"' :: t' ∧ R .apart s t'
  escape : ∀ {s t c}, R .quoted ('\\' :: c :: s) t → ∃ t', t = '\\' :: c :: t' ∧ R .quoted s t'

namespace Tracks

variable {R : Place → List Char → List Char → Prop} (hR : Tracks R) {s t r : List Char}

include hR

/-! ### Words and strings -/

theorem word {w : List Char} (hw : w.all isSolid = true) (h : R .joined s t)
    (hs : readWord w s = .ok r) : ∃ r', readWord w t = .ok r' ∧ R .joined r r' := by
  induction w generalizing s t with
  | nil =>
    cases hs
    exact ⟨t, rfl, h⟩
  | cons c w ih =>
    match s with
    | [] => cases hs
    | d :: s =>
      rw [readWord] at hs
      split at hs
      · next hcd =>
        subst hcd
        obtain ⟨hc, hw⟩ := Bool.and_eq_true_iff.mp hw
        obtain ⟨t', rfl, h'⟩ := hR.solid h hc
        obtain ⟨r', hr', hrest⟩ := ih hw h' hs
        exact ⟨r', by rw [readWord, if_pos rfl, hr'], hrest⟩
      · cases hs

theorem hex {c : Char} {n : Nat} (hc : hexDigit? c = some n) (h : R .quoted (c :: s) t) :
    ∃ t', t = c :: t' ∧ R .quoted s t' := by
  refine hR.plain h ?_ ?_
  all_goals
    rintro rfl
    exact absurd hc (by simp [hexDigit?])

theorem unit {n : Nat} (h : R .quoted s t) (hs : readUnit s = .ok (n, r)) :
    ∃ r', readUnit t = .ok (n, r') ∧ R .quoted r r' := by
  unfold readUnit at hs
  split at hs
  · split at hs
    · next ha hb hc hd =>
      obtain ⟨hn, rfl⟩ := Prod.mk.inj (Except.ok.inj hs)
      obtain ⟨t₁, rfl, h₁⟩ := hR.hex ha h
      obtain ⟨t₂, rfl, h₂⟩ := hR.hex hb h₁
      obtain ⟨t₃, rfl, h₃⟩ := hR.hex hc h₂
      obtain ⟨t₄, rfl, h₄⟩ := hR.hex hd h₃
      refine ⟨t₄, ?_, h₄⟩
      simp only [readUnit, ha, hb, hc, hd, hn]
    · cases hs
  · cases hs

theorem trailing {n : Nat} (h : R .quoted s t) (hs : readTrailing s = .ok (n, r)) :
    ∃ r', readTrailing t = .ok (n, r') ∧ R .quoted r r' := by
  unfold readTrailing at hs
  split at hs
  · split at hs
    · next hu =>
      split at hs
      · next htrail =>
        obtain ⟨rfl, rfl⟩ := Prod.mk.inj (Except.ok.inj hs)
        obtain ⟨t', rfl, h'⟩ := hR.escape h
        obtain ⟨r', hr', hrest⟩ := hR.unit h' hu
        refine ⟨r', ?_, hrest⟩
        simp only [readTrailing, hr', if_pos htrail]
      · cases hs
    · cases hs
  · cases hs
  · cases hs

/-- An escape, with the backslash that opens it. -/
theorem kept_escape {c : Char} (h : R .quoted ('\\' :: s) t) (hs : readEscape s = .ok (c, r)) :
    ∃ t' r', t = '\\' :: t' ∧ readEscape t' = .ok (c, r') ∧ R .quoted r r' := by
  unfold readEscape at hs
  split at hs
  · cases hs
  · obtain ⟨t', rfl, h'⟩ := hR.escape h
    split at hs
    · cases hs
    · next hu =>
      obtain ⟨r₁, hr₁, h₁⟩ := hR.unit h' hu
      split at hs
      · cases hs
      · next htrail =>
        split at hs
        · next hlead =>
          split at hs
          · next ht =>
            obtain ⟨rfl, rfl⟩ := Prod.mk.inj (Except.ok.inj hs)
            obtain ⟨r', hr', hrest⟩ := hR.trailing h₁ ht
            exact ⟨_, r', rfl, by simp only [readEscape, hr₁, htrail, hlead, hr', if_true,
              Bool.false_eq_true, if_false], hrest⟩
          · cases hs
        · next hlead =>
          obtain ⟨rfl, rfl⟩ := Prod.mk.inj (Except.ok.inj hs)
          exact ⟨_, r₁, rfl, by simp only [readEscape, hr₁, htrail, hlead, Bool.false_eq_true,
            if_false], h₁⟩
  · next c _ hu =>
    split at hs
    · next hshort =>
      obtain ⟨rfl, rfl⟩ := Prod.mk.inj (Except.ok.inj hs)
      obtain ⟨t', rfl, h'⟩ := hR.escape h
      refine ⟨c :: t', t', rfl, ?_, h'⟩
      rw [readEscape, hshort]
      exact hu
    · cases hs

theorem kept_text {seen : List Char} {a : String} (h : R .quoted s t)
    (hs : readText seen s = .ok (a, r)) :
    ∃ r', readText seen t = .ok (a, r') ∧ R .apart r r' := by
  fun_induction readText seen s generalizing t with
  | case1 => cases hs
  | case2 seen s =>
    obtain ⟨rfl, rfl⟩ := Prod.mk.inj (Except.ok.inj hs)
    obtain ⟨t', rfl, h'⟩ := hR.close h
    exact ⟨t', by rw [readText], h'⟩
  | case3 seen s c r₁ he ih =>
    obtain ⟨t', r₂, rfl, ht, h'⟩ := hR.kept_escape h he
    obtain ⟨r', hr', hrest⟩ := ih h' hs
    refine ⟨r', ?_, hrest⟩
    rw [readText, ht]
    exact hr'
  | case4 => cases hs
  | case5 => cases hs
  | case6 seen c s hquote hslash hcontrol ih =>
    obtain ⟨t', rfl, h'⟩ := hR.plain h hquote hslash
    obtain ⟨r', hr', hrest⟩ := ih h' hs
    refine ⟨r', ?_, hrest⟩
    rw [readText, if_neg hcontrol, hr'] <;> assumption

/-- An escape of a skipped string, with the backslash that opens it. -/
theorem skipped_escape (h : R .quoted ('\\' :: s) t) (hs : skipEscape s = .ok r) :
    ∃ t' r', t = '\\' :: t' ∧ skipEscape t' = .ok r' ∧ R .quoted r r' := by
  unfold skipEscape at hs
  split at hs
  · cases hs
  · obtain ⟨n, hn⟩ := restOf_eq_ok.mp hs
    obtain ⟨t', rfl, h'⟩ := hR.escape h
    obtain ⟨r', hr', hrest⟩ := hR.unit h' hn
    exact ⟨_, r', rfl, by rw [skipEscape, hr', restOf], hrest⟩
  · next c _ hu =>
    split at hs
    · next hshort =>
      cases hs
      obtain ⟨t', rfl, h'⟩ := hR.escape h
      refine ⟨c :: t', t', rfl, ?_, h'⟩
      rw [skipEscape, if_pos hshort]
      exact hu
    · cases hs

theorem skipped_text (h : R .quoted s t) (hs : skipText s = .ok r) :
    ∃ r', skipText t = .ok r' ∧ R .apart r r' := by
  fun_induction skipText s generalizing t with
  | case1 => cases hs
  | case2 s =>
    cases hs
    obtain ⟨t', rfl, h'⟩ := hR.close h
    exact ⟨t', by rw [skipText], h'⟩
  | case3 s r₁ he ih =>
    obtain ⟨t', r₂, rfl, ht, h'⟩ := hR.skipped_escape h he
    obtain ⟨r', hr', hrest⟩ := ih h' hs
    refine ⟨r', ?_, hrest⟩
    rw [skipText, ht]
    exact hr'
  | case4 => cases hs
  | case5 => cases hs
  | case6 c s hquote hslash hcontrol ih =>
    obtain ⟨t', rfl, h'⟩ := hR.plain h hquote hslash
    obtain ⟨r', hr', hrest⟩ := ih h' hs
    refine ⟨r', ?_, hrest⟩
    rw [skipText, if_neg hcontrol, hr'] <;> assumption

theorem over_text {use : Use} (h : R .quoted s t) (hs : passText use s = .ok r) :
    ∃ r', passText use t = .ok r' ∧ R .apart r r' := by
  cases use with
  | kept room =>
    obtain ⟨a, ha⟩ := restOf_eq_ok.mp hs
    obtain ⟨r', hr', hrest⟩ := hR.kept_text h ha
    exact ⟨r', restOf_eq_ok.mpr ⟨a, hr'⟩, hrest⟩
  | skipped => exact hR.skipped_text h hs

/-! ### Numbers -/

theorem not_isDigit {c : Char} (h : R .joined s (c :: t))
    (hs : ∀ d s', s = d :: s' → ¬ d.isDigit = true) : ¬ c.isDigit = true := by
  intro hc
  obtain ⟨s', rfl⟩ := hR.head h (isSolid_of_isDigit hc)
  exact hs c s' rfl hc

/-- Behind a solid character, both texts go on with the same digits. -/
theorem takeWhile_isDigit (h : R .joined s t) :
    t.takeWhile Char.isDigit = s.takeWhile Char.isDigit ∧
      R .joined (s.dropWhile Char.isDigit) (t.dropWhile Char.isDigit) := by
  induction s generalizing t with
  | nil =>
    match t with
    | [] => exact ⟨rfl, h⟩
    | d :: t =>
      have hd := hR.not_isDigit h (by simp)
      rw [List.takeWhile_cons_of_neg hd, List.dropWhile_cons_of_neg hd]
      exact ⟨rfl, h⟩
  | cons c s ih =>
    by_cases hc : c.isDigit = true
    · obtain ⟨t', rfl, h'⟩ := hR.solid h (isSolid_of_isDigit hc)
      simpa only [List.takeWhile_cons_of_pos hc, List.dropWhile_cons_of_pos hc, List.cons.injEq,
        true_and] using ih h'
    · rw [List.takeWhile_cons_of_neg hc, List.dropWhile_cons_of_neg hc]
      match t with
      | [] => exact ⟨rfl, h⟩
      | d :: t =>
        have hd := hR.not_isDigit h (by rintro _ _ ⟨⟩; exact hc)
        rw [List.takeWhile_cons_of_neg hd, List.dropWhile_cons_of_neg hd]
        exact ⟨rfl, h⟩

theorem digits {use : Use} {ds : List Char} (h : R .joined s t)
    (hs : readDigits use s = .ok (ds, r)) :
    ∃ r', readDigits use t = .ok (ds, r') ∧ R .joined r r' := by
  obtain ⟨htake, hdrop⟩ := hR.takeWhile_isDigit h
  unfold readDigits at hs
  split at hs
  · cases hs
  · next hne =>
    obtain ⟨rfl, rfl⟩ := Prod.mk.inj (Except.ok.inj hs)
    exact ⟨_, by rw [readDigits, htake, if_neg hne], hdrop⟩

theorem whole {use : Use} {ds : List Char} (h : R .joined s t)
    (hs : readWhole use s = .ok (ds, r)) :
    ∃ r', readWhole use t = .ok (ds, r') ∧ R .joined r r' := by
  obtain ⟨hs, hzero⟩ := readWhole_eq_ok.mp hs
  obtain ⟨r', hr', hrest⟩ := hR.digits h hs
  refine ⟨r', readWhole_eq_ok.mpr ⟨hr', ?_⟩, hrest⟩
  rintro d t' rfl hd
  obtain ⟨s', rfl⟩ := hR.head h (by decide)
  obtain ⟨_, ht, h'⟩ := hR.solid h (by decide)
  cases ht
  obtain ⟨s', rfl⟩ := hR.head h' (isSolid_of_isDigit hd)
  exact hzero d s' rfl hd

theorem fraction {use : Use} {ds : List Char} (h : R .joined s t)
    (hs : readFraction use s = .ok (ds, r)) :
    ∃ r', readFraction use t = .ok (ds, r') ∧ R .joined r r' := by
  unfold readFraction at hs
  split at hs
  · obtain ⟨t', rfl, h'⟩ := hR.solid h (by decide)
    exact hR.digits h' hs
  · next hpoint =>
    obtain ⟨rfl, rfl⟩ := Prod.mk.inj (Except.ok.inj hs)
    refine ⟨t, ?_, h⟩
    unfold readFraction
    split
    · obtain ⟨s', rfl⟩ := hR.head h (by decide)
      exact absurd rfl (hpoint s')
    · rfl

theorem sign (h : R .joined s t) : (exponentSign t).1 = (exponentSign s).1 ∧
    R .joined (exponentSign s).2 (exponentSign t).2 := by
  fun_cases exponentSign s with
  | case1 s =>
    obtain ⟨t', rfl, h'⟩ := hR.solid h (by decide)
    exact ⟨rfl, h'⟩
  | case2 s =>
    obtain ⟨t', rfl, h'⟩ := hR.solid h (by decide)
    exact ⟨rfl, h'⟩
  | case3 s hminus hplus =>
    have hsign : exponentSign t = (false, t) := by
      fun_cases exponentSign t with
      | case1 t =>
        obtain ⟨s', rfl⟩ := hR.head h (by decide)
        exact absurd rfl (hminus s')
      | case2 t =>
        obtain ⟨s', rfl⟩ := hR.head h (by decide)
        exact absurd rfl (hplus s')
      | case3 => rfl
    rw [hsign]
    exact ⟨rfl, h⟩

theorem exponent {use : Use} {e : Option (Bool × List Char)} (h : R .joined s t)
    (hs : readExponent use s = .ok (e, r)) :
    ∃ r', readExponent use t = .ok (e, r') ∧ R .joined r r' := by
  have signed : ∀ {s t}, R .joined s t → (readDigits use (exponentSign s).2).map
      (fun p => (some ((exponentSign s).1, p.1), p.2)) = .ok (e, r) →
      ∃ r', (readDigits use (exponentSign t).2).map
        (fun p => (some ((exponentSign t).1, p.1), p.2)) = .ok (e, r') ∧ R .joined r r' := by
    intro s t h hs
    obtain ⟨hsign, h'⟩ := hR.sign h
    obtain ⟨⟨ds, _⟩, hd, hp⟩ := map_eq_ok.mp hs
    obtain ⟨rfl, rfl⟩ := Prod.mk.inj hp
    obtain ⟨r', hr', hrest⟩ := hR.digits h' hd
    exact ⟨r', map_eq_ok.mpr ⟨(ds, r'), hr', by rw [hsign]⟩, hrest⟩
  unfold readExponent at hs
  split at hs
  · obtain ⟨t', rfl, h'⟩ := hR.solid h (by decide)
    exact signed h' hs
  · obtain ⟨t', rfl, h'⟩ := hR.solid h (by decide)
    exact signed h' hs
  · next hsmall hlarge =>
    obtain ⟨rfl, rfl⟩ := Prod.mk.inj (Except.ok.inj hs)
    refine ⟨t, ?_, h⟩
    unfold readExponent
    split
    · obtain ⟨s', rfl⟩ := hR.head h (by decide)
      exact absurd rfl (hsmall s')
    · obtain ⟨s', rfl⟩ := hR.head h (by decide)
      exact absurd rfl (hlarge s')
    · rfl

theorem unsigned {use : Use} {negative : Bool} {n : Numeral} (h : R .joined s t)
    (hs : readUnsigned use negative s = .ok (n, r)) :
    ∃ r', readUnsigned use negative t = .ok (n, r') ∧ R .joined r r' := by
  unfold readUnsigned at hs
  split at hs
  · cases hs
  · next hw =>
    split at hs
    · cases hs
    · next hf =>
      split at hs
      · cases hs
      · next he =>
        obtain ⟨rfl, rfl⟩ := Prod.mk.inj (Except.ok.inj hs)
        obtain ⟨r₁, hr₁, h₁⟩ := hR.whole h hw
        obtain ⟨r₂, hr₂, h₂⟩ := hR.fraction h₁ hf
        obtain ⟨r₃, hr₃, h₃⟩ := hR.exponent h₂ he
        exact ⟨r₃, by simp only [readUnsigned, hr₁, hr₂, hr₃], h₃⟩

theorem numeral {use : Use} {n : Numeral} (h : R .joined s t)
    (hs : readNumeral use s = .ok (n, r)) :
    ∃ r', readNumeral use t = .ok (n, r') ∧ R .joined r r' := by
  unfold readNumeral at hs
  split at hs
  · obtain ⟨t', rfl, h'⟩ := hR.solid h (by decide)
    exact hR.unsigned h' hs
  · next hminus =>
    obtain ⟨r', hr', hrest⟩ := hR.unsigned h hs
    refine ⟨r', ?_, hrest⟩
    unfold readNumeral
    split
    · obtain ⟨s', rfl⟩ := hR.head h (by decide)
      exact absurd rfl (hminus s')
    · exact hr'

theorem number {use : Use} {x : Number} (h : R .joined s t) (hs : readNumber use s = .ok (x, r)) :
    ∃ r', readNumber use t = .ok (x, r') ∧ R .joined r r' := by
  unfold readNumber at hs
  split at hs
  · cases hs
  · next hn =>
    split at hs
    · next hx =>
      obtain ⟨rfl, rfl⟩ := Prod.mk.inj (Except.ok.inj hs)
      obtain ⟨r', hr', hrest⟩ := hR.numeral h hn
      exact ⟨r', by simp only [readNumber, hr', hx], hrest⟩
    · cases hs

theorem over_number {use : Use} (h : R .joined s t) (hs : passNumber use s = .ok r) :
    ∃ r', passNumber use t = .ok r' ∧ R .joined r r' := by
  cases use with
  | kept room =>
    obtain ⟨x, hx⟩ := restOf_eq_ok.mp hs
    obtain ⟨r', hr', hrest⟩ := hR.number h hx
    exact ⟨r', restOf_eq_ok.mpr ⟨x, hr'⟩, hrest⟩
  | skipped =>
    obtain ⟨n, hn⟩ := restOf_eq_ok.mp hs
    obtain ⟨r', hr', hrest⟩ := hR.numeral h hn
    exact ⟨r', restOf_eq_ok.mpr ⟨n, hr'⟩, hrest⟩

end Tracks

end Prototypal.Json
