import Prototypal.Proofs.Spelling

/-!
# Prototypal — Proofs — Skipping

Skipping is total on strict JSON: whatever a value is and however deep, the reader passes over its
spelling and stands right behind it.

The reader keeps the open brackets on a stack and knows of nothing else, so what it does with a
phrase is said with any stack and any text behind the phrase (`Skips`), and proved by one induction
over the derivation of the spelling.  Elements and members are passed over alike, once the name of a
member is (`passItem`).

* `passOver_spelled`: a value that is skipped is skipped to its end.
-/

namespace Prototypal.Json

/-! ### What begins a value -/

theorem skipSpace_of_begins {s : List Char} (h : Relaxed.Begins s) : skipSpace s = s := by
  have hhalts := h.halts
  obtain ⟨c, r, rfl, -⟩ := h
  refine skipSpace_of_not_isSpace ?_ r
  cases hspace : isSpace c with
  | false => rfl
  | true => exact (Relaxed.isBlank_of_isSpace hspace).symm.trans (hhalts c rfl)

theorem skipSpace_value {t : Tree} {g s : List Char} (hg : Dialect.strict.Gap g)
    (h : Spells .strict (.value t) s) (rest : List Char) :
    skipSpace (g ++ (s ++ rest)) = s ++ rest := by
  rw [skipSpace_gap hg, skipSpace_of_begins (Relaxed.begins_value h rest)]

/-- Behind a gap, an item begins with a value or with the quote of a name. -/
theorem begins_item {i : Item} {s : List Char} (h : Spells .strict (.item i) s) (rest : List Char) :
    Relaxed.Begins (skipSpace (s ++ rest)) := by
  cases h with
  | @element t g s g' hg h hg' =>
    rw [List.append_assoc, List.append_assoc, skipSpace_value hg h]
    exact Relaxed.begins_value h (g' ++ rest)
  | member hg =>
    simp only [List.append_assoc]
    rw [skipSpace_gap hg]
    exact ⟨_, _, rfl, .inr rfl⟩

theorem begins_items {is : List Item} {s : List Char} (h : Spells .strict (.items is) s)
    (rest : List Char) : Relaxed.Begins (skipSpace (s ++ rest)) := by
  cases h with
  | last h => exact begins_item h rest
  | more h _ =>
    rw [List.append_assoc]
    exact begins_item h _

/-! ### One step -/

def Bracket.opening : Bracket → Char
  | square => '['
  | curly => '\x7b'

/-- The text after what follows an item, from before the item. -/
def passItem (b : Bracket) (stack : List Bracket) (s : List Char) : Except Fault (List Char) :=
  match b with
  | .square => passBrackets .skipped .value (.square :: stack) s
  | .curly =>
    match passKey .skipped s with
    | .ok r => passBrackets .skipped .value (.curly :: stack) r
    | .error f => .error f

section

variable {b : Bracket} {stack : List Bracket} {s r r' : List Char} {c : Char}

theorem passBrackets_empty (hs : skipSpace s = b.opening :: r)
    (hr : skipSpace r = b.closing :: r') :
    passBrackets .skipped .value stack s = passBrackets .skipped .rest stack r' := by
  cases b with
  | square =>
    rw [passBrackets, hs]
    simp only [Bracket.opening, Use.admits, if_true]
    rw [hr]
    rfl
  | curly =>
    rw [passBrackets, hs]
    simp only [Bracket.opening, Use.admits, if_true]
    rw [hr]
    rfl

theorem passBrackets_open (hs : skipSpace s = b.opening :: r)
    (hr : ∀ r', skipSpace r ≠ b.closing :: r') :
    passBrackets .skipped .value stack s = passItem b stack r := by
  cases b with
  | square =>
    rw [passBrackets, hs]
    simp only [Bracket.opening, Use.admits, if_true]
    split
    · next h => exact absurd h (hr _)
    · rfl
  | curly =>
    rw [passBrackets, hs]
    simp only [Bracket.opening, Use.admits, if_true]
    split
    · next h => exact absurd h (hr _)
    · rw [passItem]
      cases passKey .skipped r <;> rfl

theorem passBrackets_close (hs : skipSpace s = b.closing :: r) :
    passBrackets .skipped .rest (b :: stack) s = passBrackets .skipped .rest stack r := by
  rw [passBrackets, hs]
  simp only [if_true]

theorem passBrackets_comma (hs : skipSpace s = ',' :: r) :
    passBrackets .skipped .rest (b :: stack) s = passItem b stack r := by
  have hne : ',' ≠ b.closing := by cases b <;> decide
  rw [passBrackets, hs]
  simp only [if_neg hne, if_true]
  cases b with
  | square => rfl
  | curly =>
    rw [passItem]
    cases passKey .skipped r <;> rfl

theorem passBrackets_scalar (hs : skipSpace s = s) (hsquare : ∀ r, s ≠ '[' :: r)
    (hcurly : ∀ r, s ≠ '\x7b' :: r) (hr : passScalar .skipped s = .ok r) :
    passBrackets .skipped .value stack s = passBrackets .skipped .rest stack r := by
  rw [passBrackets]
  rw [hs]
  split
  · exact absurd rfl (hsquare _)
  · exact absurd rfl (hcurly _)
  · rw [hr]

/-- Space before a value, or before what follows one, makes no difference. -/
theorem passBrackets_congr {due : Due} (hstack : due = .rest → stack ≠ [])
    (h : skipSpace r = skipSpace r') :
    passBrackets .skipped due stack r = passBrackets .skipped due stack r' := by
  cases due with
  | value =>
    conv => lhs; rw [passBrackets, h]
    conv => rhs; rw [passBrackets]
  | rest =>
    cases stack with
    | nil => exact absurd rfl (hstack rfl)
    | cons b stack =>
      conv => lhs; rw [passBrackets, h]
      conv => rhs; rw [passBrackets]

end

/-! ### Names, words and numbers -/

theorem passColon_spelled {g : List Char} (hg : Dialect.strict.Gap g) (rest : List Char) :
    passColon (g ++ ':' :: rest) = .ok rest := by
  rw [passColon, skipSpace_gap hg]
  rfl

theorem passKey_spelled {g key g₁ : List Char} (hg : Dialect.strict.Gap g) (hkey : IsText key)
    (hg₁ : Dialect.strict.Gap g₁) (rest : List Char) :
    passKey .skipped (g ++ '"' :: (key ++ '"' :: (g₁ ++ ':' :: rest))) = .ok rest := by
  have hname : skipSpace (g ++ '"' :: (key ++ '"' :: (g₁ ++ ':' :: rest))) =
      '"' :: (key ++ '"' :: (g₁ ++ ':' :: rest)) := by
    rw [skipSpace_gap hg]
    rfl
  simp only [passKey, hname, passText, skipText_spelled hkey, passColon_spelled hg₁]

/-- The first character of a number. -/
theorem exists_cons_of_isNumber {s : List Char} (h : IsNumber s) :
    ∃ c r, s = c :: r ∧ (c = '-' || c.isDigit) = true := by
  obtain ⟨hsign, hwhole, -, -⟩ := h
  rcases hsign with rfl | rfl
  · cases hwhole with
    | zero => exact ⟨_, _, rfl, rfl⟩
    | digits hc => exact ⟨_, _, rfl, by simp [hc]⟩
  · exact ⟨_, _, rfl, rfl⟩

theorem passScalar_number {s rest : List Char} (h : IsNumber s) (hrest : Ends rest) :
    passScalar .skipped (s ++ rest) = .ok rest := by
  obtain ⟨c, r, hs, hc⟩ := exists_cons_of_isNumber h
  have hread : restOf (readNumeral .skipped (s ++ rest)) = .ok rest := by
    obtain ⟨hsign, hwhole, hfraction, hexponent⟩ := h
    obtain ⟨e, he, -⟩ := readNumeral_spelled .skipped hsign hwhole hfraction hexponent hrest
    exact restOf_eq_ok.mpr ⟨_, he⟩
  have hne : ∀ d, (d = '-' || d.isDigit) = false → c ≠ d := fun d hd e => by simp [← e, hc] at hd
  rw [hs, List.cons_append] at hread ⊢
  rw [passScalar, if_pos hc, passNumber, hread]
  · exact hne '"' (by decide)
  · exact hne 'n' (by decide)
  · exact hne 't' (by decide)
  · exact hne 'f' (by decide)

/-! ### Values -/

/-- The bracket within which an item stands. -/
def Item.bracket : Item → Bracket
  | element _ => .square
  | member .. => .curly

/-- The reader passes over a spelled phrase, whatever brackets are open and whatever comes next. -/
def Skips : Phrase → List Char → Prop
  | .value _, s => ∀ stack rest, Ends rest →
      passBrackets .skipped .value stack (s ++ rest) = passBrackets .skipped .rest stack rest
  | .item i, s => ∀ stack rest, Ends rest →
      passItem i.bracket stack (s ++ rest) = passBrackets .skipped .rest (i.bracket :: stack) rest
  | .items is, s => ∀ b, (∀ i ∈ is, i.bracket = b) → ∀ stack rest,
      passItem b stack (s ++ b.closing :: rest) = passBrackets .skipped .rest stack rest

section

variable {t : Tree} {b : Bracket} {s r : List Char}

theorem Skips.scalar (h : Spells .strict (.value t) s) (hhead : ∀ b : Bracket, s.head? ≠ b.opening)
    (hpass : ∀ rest, Ends rest → passScalar .skipped (s ++ rest) = .ok rest) :
    Skips (.value t) s := by
  intro stack rest hrest
  have hspace := skipSpace_of_begins (Relaxed.begins_value h rest)
  obtain ⟨c, r, hs, -⟩ := Relaxed.begins_value h []
  rw [List.append_nil] at hs
  subst hs
  refine passBrackets_scalar hspace ?_ ?_ (hpass rest hrest)
  · rintro r' ⟨⟩
    exact hhead .square rfl
  · rintro r' ⟨⟩
    exact hhead .curly rfl

theorem skipSpace_opening (b : Bracket) (s : List Char) :
    skipSpace (b.opening :: s) = b.opening :: s := by
  cases b <;> rfl

theorem skipSpace_closing (b : Bracket) (s : List Char) :
    skipSpace (b.closing :: s) = b.closing :: s := by
  cases b <;> rfl

theorem ends_closing (b : Bracket) (s : List Char) : Ends (b.closing :: s) := by
  cases b <;> exact ends_cons (by decide) s

theorem Skips.empty {g : List Char} (hg : Dialect.strict.Gap g) :
    Skips (.value t) (b.opening :: g ++ [b.closing]) := by
  intro stack rest _
  refine passBrackets_empty (b := b) (r := g ++ b.closing :: rest) ?_ ?_
  · simp [skipSpace_opening]
  · rw [skipSpace_gap hg, skipSpace_closing]

theorem Skips.brackets {is : List Item} (h : Spells .strict (.items is) s)
    (hb : ∀ i ∈ is, i.bracket = b) (hs : Skips (.items is) s) :
    Skips (.value t) (b.opening :: s ++ [b.closing]) := by
  intro stack rest _
  have hopen : skipSpace (b.opening :: s ++ [b.closing] ++ rest) =
      b.opening :: (s ++ b.closing :: rest) := by
    simp [skipSpace_opening]
  rw [passBrackets_open hopen, hs b hb]
  intro r' hr
  have hclosing : Relaxed.Closing (b.closing :: r') := by
    cases b with
    | square => exact ⟨_, rfl, .inr rfl⟩
    | curly => exact ⟨_, rfl, .inl rfl⟩
  exact (hr ▸ begins_items h (b.closing :: rest)).not_closing hclosing

theorem Skips.element {g g' : List Char} (hg : Dialect.strict.Gap g) (hg' : Dialect.strict.Gap g')
    (hs : Skips (.value t) s) : Skips (.item (.element t)) (g ++ s ++ g') := by
  intro stack rest hrest
  calc passItem .square stack (g ++ s ++ g' ++ rest)
      = passBrackets .skipped .value (.square :: stack) (s ++ (g' ++ rest)) :=
        passBrackets_congr (by simp) (by simp [skipSpace_gap hg])
    _ = passBrackets .skipped .rest (.square :: stack) (g' ++ rest) :=
        hs _ _ (ends_gap_append hg' hrest)
    _ = passBrackets .skipped .rest (.square :: stack) rest :=
        passBrackets_congr (by simp) (skipSpace_gap hg' rest)

theorem Skips.member {key g g₁ g₂ g' : List Char} (hg : Dialect.strict.Gap g) (hkey : IsText key)
    (hg₁ : Dialect.strict.Gap g₁) (hg₂ : Dialect.strict.Gap g₂) (hg' : Dialect.strict.Gap g')
    (hs : Skips (.value t) s) :
    Skips (.item (.member key t)) (g ++ ('"' :: key ++ ['"']) ++ g₁ ++ [':'] ++ g₂ ++ s ++ g') := by
  intro stack rest hrest
  have hname := passKey_spelled hg hkey hg₁ (g₂ ++ (s ++ (g' ++ rest)))
  calc passItem .curly stack
        (g ++ ('"' :: key ++ ['"']) ++ g₁ ++ [':'] ++ g₂ ++ s ++ g' ++ rest)
      = passBrackets .skipped .value (.curly :: stack) (g₂ ++ (s ++ (g' ++ rest))) := by
        simp only [List.append_assoc, List.cons_append, List.nil_append, passItem, hname]
    _ = passBrackets .skipped .value (.curly :: stack) (s ++ (g' ++ rest)) :=
        passBrackets_congr (by simp) (skipSpace_gap hg₂ _)
    _ = passBrackets .skipped .rest (.curly :: stack) (g' ++ rest) :=
        hs _ _ (ends_gap_append hg' hrest)
    _ = passBrackets .skipped .rest (.curly :: stack) rest :=
        passBrackets_congr (by simp) (skipSpace_gap hg' rest)

end

/-- **Skipping is total**: every phrase is passed over to its end. -/
theorem skips_spells {p : Phrase} {s : List Char} (h : Spells .strict p s) : Skips p s := by
  induction h with
  | null => exact .scalar .null (by rintro ⟨⟩ <;> decide) fun rest _ => rfl
  | true => exact .scalar .true (by rintro ⟨⟩ <;> decide) fun rest _ => rfl
  | false => exact .scalar .false (by rintro ⟨⟩ <;> decide) fun rest _ => rfl
  | number h =>
    obtain ⟨c, r, rfl, hc⟩ := exists_cons_of_isNumber h
    refine .scalar (.number h) ?_ fun rest hrest => passScalar_number h hrest
    rintro b ⟨⟩
    cases b <;> exact absurd hc (by decide)
  | @text s h =>
    refine .scalar (.text h) (by rintro ⟨⟩ <;> simp [Bracket.opening]) fun rest _ => ?_
    simp only [List.append_assoc, List.cons_append, passScalar, passText]
    exact skipText_spelled h rest
  | emptyArray hg => exact Skips.empty (b := .square) hg
  | emptyObject hg => exact Skips.empty (b := .curly) hg
  | array h he ih =>
    cases he
    rw [List.append_nil]
    exact Skips.brackets (b := .square) h (List.forall_mem_map.mpr fun _ _ => rfl) ih
  | object h he ih =>
    cases he
    rw [List.append_nil]
    exact Skips.brackets (b := .curly) h (List.forall_mem_map.mpr fun _ _ => rfl) ih
  | element hg _ hg' ih => exact .element hg hg' ih
  | member hg hkey hg₁ hg₂ _ hg' ih => exact .member hg hkey hg₁ hg₂ hg' ih
  | last _ ih =>
    intro b hb stack rest
    obtain rfl := hb _ List.mem_cons_self
    rw [ih stack _ (ends_closing _ rest), passBrackets_close (skipSpace_closing _ rest)]
  | more _ _ ih ihr =>
    intro b hb stack rest
    obtain ⟨hi, his⟩ := List.forall_mem_cons.mp hb
    subst hi
    rw [List.append_assoc, List.cons_append, ih stack _ (ends_cons rfl _), passBrackets_comma rfl,
      ihr _ his]

theorem passOver_spelled {t : Tree} {g s rest : List Char} (hg : Dialect.strict.Gap g)
    (h : Spells .strict (.value t) s) (hrest : Ends rest) :
    passOver .skipped (g ++ (s ++ rest)) = .ok rest := by
  rw [passOver, passBrackets_congr (by simp) (skipSpace_gap hg _), skips_spells h [] rest hrest,
    passBrackets]

end Prototypal.Json
