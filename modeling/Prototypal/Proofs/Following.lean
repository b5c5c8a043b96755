import Prototypal.Proofs.Tracking
import Prototypal.Settings.Project

/-!
# Prototypal — Proofs — Following

Readers of settings on two texts in a relation that they track.  A reader follows the relation
(`Follows`) if it succeeds on the second text wherever it does on the first, with the same result,
and leaves texts in the relation.

* `Tracks.project`: the reader of projects follows every relation that is tracked.
-/

namespace Prototypal.Json

theorem isSpace_of_skipSpace {c : Char} {s r : List Char} (h : skipSpace s = c :: r) :
    isSpace c = false := by
  have := List.head?_dropWhile_not isSpace s
  rw [← skipSpace, h] at this
  simpa using this

/-- Where a value is read, the text does not end. -/
theorem skipSpace_of_passBrackets {use : Use} {stack : List Bracket} {s r : List Char}
    (h : passBrackets use .value stack s = .ok r) : ∃ c s', skipSpace s = c :: s' := by
  cases hs : skipSpace s with
  | nil =>
    rw [passBrackets, hs] at h
    cases h
  | cons c s' => exact ⟨c, s', rfl⟩

theorem nextMember_eq_ok {s r : List Char} :
    nextMember false s = .ok r ↔ ∃ s', s = ',' :: s' ∧ r = skipSpace s' := by
  unfold nextMember
  split <;> simp_all [eq_comm]

/-- The relation behind a value, which may end in a solid character. -/
def Past (R : Place → List Char → List Char → Prop) (s t : List Char) : Prop :=
  R .apart s t ∨ R .joined s t

/-- The relation where something is due, a value or what follows one. -/
def Ahead (R : Place → List Char → List Char → Prop) : Due → List Char → List Char → Prop
  | .value => R .apart
  | .rest => Past R

/-- What is due in an array: the first element, or what follows another. -/
def dueElement (first : Bool) : Due := if first then .value else .rest

/-- Wherever a reader succeeds on the first of two texts in a relation, it does so on the second,
with the same result, and leaves texts in the relation. -/
def Follows (R : Place → List Char → List Char → Prop) {α : Type} (read : List Char → Reading α) :
    Prop :=
  ∀ ⦃s t a r⦄, R .apart s t → read s = .ok (a, r) → ∃ r', read t = .ok (a, r') ∧ Past R r r'

theorem Follows.map {R : Place → List Char → List Char → Prop} {α β : Type}
    {read : List Char → Reading α} {read' : List Char → Reading β} (h : Follows R read) (f : α → β)
    (hmap : ∀ s, read' s = (read s).map fun (a, r) => (f a, r)) : Follows R read' := by
  intro s t b r hst hs
  obtain ⟨⟨a, _⟩, ha, hp⟩ := map_eq_ok.mp ((hmap s).symm.trans hs)
  obtain ⟨rfl, rfl⟩ := Prod.mk.inj hp
  obtain ⟨r', hr', hrest⟩ := h hst ha
  exact ⟨r', (hmap t).trans (map_eq_ok.mpr ⟨(a, r'), hr', rfl⟩), hrest⟩

namespace Tracks

variable {R : Place → List Char → List Char → Prop} (hR : Tracks R) {s t r : List Char}

include hR

/-- Behind a value the reader goes on only if a mark comes next. -/
theorem past {c : Char} (h : Past R s t) (hs : skipSpace s = c :: r) (hc : isSolid c = false) :
    ∃ r', skipSpace t = c :: r' ∧ R (.after c) r r' := by
  rcases h with h | h
  · exact hR.next h hs
  · exact hR.mark h hs hc

/-! ### Values -/

/-- A value without brackets, from its first character on. -/
theorem scalar {use : Use} {c : Char} (h : R (.after c) s t)
    (hs : passScalar use (c :: s) = .ok r) :
    ∃ r', passScalar use (c :: t) = .ok r' ∧ Past R r r' := by
  have keyword : ∀ {w s t}, w.all isSolid = true → R .joined s t → readWord w s = .ok r →
      ∃ r', readWord w t = .ok r' ∧ Past R r r' := fun hw h hs => by
    obtain ⟨r', hr', hrest⟩ := hR.word hw h hs
    exact ⟨r', hr', .inr hrest⟩
  unfold passScalar at hs
  split at hs
  · cases hs
  · next heq =>
    obtain ⟨rfl, rfl⟩ := List.cons.inj heq
    obtain ⟨r', hr', hrest⟩ := hR.over_text h hs
    exact ⟨r', hr', .inl hrest⟩
  · next heq =>
    obtain ⟨rfl, rfl⟩ := List.cons.inj heq
    exact keyword rfl h hs
  · next heq =>
    obtain ⟨rfl, rfl⟩ := List.cons.inj heq
    exact keyword rfl h hs
  · next heq =>
    obtain ⟨rfl, rfl⟩ := List.cons.inj heq
    exact keyword rfl h hs
  · next hquote hn ht hf heq =>
    obtain ⟨rfl, rfl⟩ := List.cons.inj heq
    split at hs
    · next hnum =>
      have hspace := isSpace_of_isSolid (isSolid_of_number hnum)
      have h' : R .joined (c :: s) (c :: t) := hR.cons (by decide) hspace h
      obtain ⟨r', hr', hrest⟩ := hR.over_number h' hs
      refine ⟨r', ?_, .inr hrest⟩
      rw [passScalar, if_pos hnum, hr'] <;> assumption
    · cases hs

theorem colon (h : R .apart s t) (hs : passColon s = .ok r) :
    ∃ r', passColon t = .ok r' ∧ R .apart r r' := by
  unfold passColon at hs
  split at hs
  · next he =>
    cases hs
    obtain ⟨r', hr', hrest⟩ := hR.next h he
    exact ⟨r', by simp only [passColon, hr'], hrest⟩
  · cases hs

theorem key {use : Use} (h : R .apart s t) (hs : passKey use s = .ok r) :
    ∃ r', passKey use t = .ok r' ∧ R .apart r r' := by
  unfold passKey at hs
  split at hs
  · next he =>
    split at hs
    · next ht =>
      obtain ⟨r₁, hr₁, h₁⟩ := hR.next h he
      obtain ⟨r₂, hr₂, h₂⟩ := hR.over_text h₁ ht
      obtain ⟨r', hr', hrest⟩ := hR.colon h₂ hs
      exact ⟨r', by simp only [passKey, hr₁, hr₂, hr'], hrest⟩
    · cases hs
  · cases hs

/-- If what comes next on the first side is something else than a given mark, so it is on the
second. -/
theorem next_ne {c d : Char} {s₁ : List Char} (h : R .apart s t) (hs : skipSpace s = c :: s₁)
    (hne : ∀ r, skipSpace s = d :: r → False) : ∀ r, skipSpace t = d :: r → False := by
  intro r hr
  obtain ⟨t₁, ht, -⟩ := hR.next h hs
  obtain ⟨rfl, -⟩ := List.cons.inj (ht.symm.trans hr)
  exact hne s₁ hs

theorem brackets {use : Use} {due : Due} {stack : List Bracket} (h : Ahead R due s t)
    (hs : passBrackets use due stack s = .ok r) :
    ∃ r', passBrackets use due stack t = .ok r' ∧ Past R r r' := by
  fun_induction passBrackets use due stack s generalizing t with
  | case1 stack s s₁ he hroom s₂ he' ih | case4 stack s s₁ he hroom s₂ he' ih =>
    obtain ⟨t₁, ht₁, h₁⟩ := hR.next h he
    obtain ⟨t₂, ht₂, h₂⟩ := hR.next h₁ he'
    obtain ⟨r', hr', hrest⟩ := ih (.inl h₂) hs
    refine ⟨r', ?_, hrest⟩
    rw [passBrackets, ht₁]
    simp only [hroom, if_true]
    rw [ht₂]
    exact hr'
  | case2 stack s s₁ he hroom hne ih =>
    obtain ⟨t₁, ht₁, h₁⟩ := hR.next h he
    obtain ⟨r', hr', hrest⟩ := ih h₁ hs
    -- an array that is not empty on one side is not empty on the other
    obtain ⟨c, s₂, he'⟩ := skipSpace_of_passBrackets hs
    have hne' := hR.next_ne h₁ he' hne
    refine ⟨r', ?_, hrest⟩
    rw [passBrackets, ht₁]
    simp only [hroom, if_true]
    exact hr'
  | case5 stack s s₁ he hroom s₂ hk hne ih =>
    obtain ⟨t₁, ht₁, h₁⟩ := hR.next h he
    obtain ⟨t₂, ht₂, h₂⟩ := hR.key h₁ hk
    obtain ⟨r', hr', hrest⟩ := ih h₂ hs
    have hne' : ∀ r, skipSpace t₁ = '\x7d' :: r → False := by
      intro r hr
      rw [passKey, hr] at ht₂
      cases ht₂
    refine ⟨r', ?_, hrest⟩
    rw [passBrackets, ht₁]
    simp only [hroom, if_true]
    rw [ht₂]
    exact hr'
  | case8 stack s s₁ harray hobject hv ih =>
    cases he : skipSpace s with
    | nil =>
      rw [he] at hv
      cases hv
    | cons c s₂ =>
      rw [he] at hv
      obtain ⟨t₁, ht₁, h₁⟩ := hR.next h he
      obtain ⟨t₂, ht₂, h₂⟩ := hR.scalar h₁ hv
      obtain ⟨r', hr', hrest⟩ := ih h₂ hs
      refine ⟨r', ?_, hrest⟩
      rw [passBrackets]
      split
      · next heq => exact (hR.next_ne h he harray _ heq).elim
      · next heq => exact (hR.next_ne h he hobject _ heq).elim
      · rw [ht₁, ht₂]
        exact hr'
  | case10 s =>
    cases hs
    exact ⟨t, by rw [passBrackets], h⟩
  | case12 b stack s s₁ he ih =>
    obtain ⟨t₁, ht₁, h₁⟩ := hR.past h he (by cases b <;> rfl)
    obtain ⟨r', hr', hrest⟩ := ih (.inl (by cases b <;> exact h₁)) hs
    refine ⟨r', ?_, hrest⟩
    rw [passBrackets, ht₁]
    simp only [if_true, hr']
  | case13 stack s s₁ he hclose ih =>
    obtain ⟨t₁, ht₁, h₁⟩ := hR.past h he rfl
    obtain ⟨r', hr', hrest⟩ := ih h₁ hs
    refine ⟨r', ?_, hrest⟩
    rw [passBrackets, ht₁]
    simp only [if_neg hclose, if_true, hr']
  | case14 stack s s₁ s₂ hk he hclose ih =>
    obtain ⟨t₁, ht₁, h₁⟩ := hR.past h he rfl
    obtain ⟨t₂, ht₂, h₂⟩ := hR.key h₁ hk
    obtain ⟨r', hr', hrest⟩ := ih h₂ hs
    refine ⟨r', ?_, hrest⟩
    rw [passBrackets, ht₁]
    simp only [if_neg hclose, if_true]
    rw [ht₂]
    exact hr'
  | _ => cases hs

/-- A whole value. -/
theorem over_value {use : Use} (h : R .apart s t) (hs : passOver use s = .ok r) :
    ∃ r', passOver use t = .ok r' ∧ Past R r r' :=
  hR.brackets h hs

/-! ### Records -/

/-- The name of a member, from what follows the space before it.  All that comes next is marks. -/
theorem memberKey {first : Bool} {a : String} (h : Past R s t)
    (hs : readKey first (skipSpace s) = .ok (a, r)) :
    ∃ r', readKey first (skipSpace t) = .ok (a, r') ∧ R .apart r r' := by
  unfold readKey at hs
  split at hs
  · next hn =>
    cases first with
    | true =>
      obtain ⟨t₁, ht₁, h₁⟩ := hR.past h (Except.ok.inj hn) rfl
      obtain ⟨r', hr', hrest⟩ := hR.kept_text h₁ hs
      exact ⟨r', by simp only [readKey, nextMember, ht₁, hr'], hrest⟩
    | false =>
      obtain ⟨s₁, he, hn⟩ := nextMember_eq_ok.mp hn
      obtain ⟨t₁, ht₁, h₁⟩ := hR.past h he rfl
      obtain ⟨t₂, ht₂, h₂⟩ := hR.next h₁ hn.symm
      obtain ⟨r', hr', hrest⟩ := hR.kept_text h₂ hs
      exact ⟨r', by simp only [readKey, nextMember, ht₁, ht₂, hr'], hrest⟩
  · cases hs
  · cases hs

section

variable {ρ : Type} {fields : List (RecordField ρ)}
  (hfields : ∀ field ∈ fields, ∀ room, Follows R (field.read room))

include hfields

theorem value {room : Nat} {key : String} {change : ρ → ρ} (h : R .apart s t)
    (hs : readValue fields room key s = .ok (change, r)) :
    ∃ r', readValue fields room key t = .ok (change, r') ∧ Past R r r' := by
  unfold readValue at hs
  split at hs
  · cases hs
  · next hc =>
    obtain ⟨t₁, ht₁, h₁⟩ := hR.colon h hc
    split at hs
    · next field hfield =>
      obtain ⟨r', hr', hrest⟩ := hfields field (List.mem_of_find?_eq_some hfield) room h₁ hs
      exact ⟨r', by simp only [readValue, ht₁, hfield, hr'], hrest⟩
    · next hnone =>
      split at hs
      · next hp =>
        obtain ⟨rfl, rfl⟩ := Prod.mk.inj (Except.ok.inj hs)
        obtain ⟨r', hr', hrest⟩ := hR.over_value h₁ hp
        exact ⟨r', by simp only [readValue, ht₁, hnone, hr'], hrest⟩
      · cases hs

theorem members {room : Nat} {seen : List String} {acc a : ρ} (h : Past R s t)
    (hs : readMembers fields room seen acc s = .ok (a, r)) :
    ∃ r', readMembers fields room seen acc t = .ok (a, r') ∧ R .apart r r' := by
  fun_induction readMembers fields room seen acc s generalizing t with
  | case1 seen acc s s₁ he =>
    obtain ⟨rfl, rfl⟩ := Prod.mk.inj (Except.ok.inj hs)
    obtain ⟨t₁, ht₁, h₁⟩ := hR.past h he rfl
    refine ⟨t₁, ?_, h₁⟩
    rw [readMembers, ht₁]
    rfl
  | case5 seen acc s key s₁ hnew change s₂ hv hne hk ih =>
    obtain ⟨t₁, ht₁, h₁⟩ := hR.memberKey h hk
    obtain ⟨t₂, ht₂, h₂⟩ := hR.value hfields h₁ hv
    obtain ⟨r', hr', hrest⟩ := ih h₂ hs
    have hne' : ∀ r, skipSpace t = '\x7d' :: r → False := by
      intro r hr
      rw [hr] at ht₁
      cases hseen : seen.isEmpty <;> simp [hseen, readKey, nextMember] at ht₁
    refine ⟨r', ?_, hrest⟩
    rw [readMembers]
    split
    · next heq => exact (hne' _ heq).elim
    · rw [ht₁]
      simp only [if_neg hnew]
      rw [ht₂]
      exact hr'
  | _ => cases hs

end

/-- The next element of an array, behind its bracket or behind another element. -/
theorem element {first : Bool} (h : Ahead R (dueElement first) s t)
    (hs : nextElement first s = .ok (some r)) :
    ∃ r', nextElement first t = .ok (some r') ∧ R .apart r r' := by
  unfold nextElement at hs
  split at hs
  · cases hs
  · cases hs
  · next c s₁ hne he =>
    cases first with
    | true =>
      cases hs
      obtain ⟨t₁, ht₁, h₁⟩ := hR.next h he
      refine ⟨c :: t₁, ?_, hR.cons (by decide) (isSpace_of_skipSpace he) h₁⟩
      simp only [nextElement, ht₁, if_true]
    | false =>
      rw [if_neg (by decide)] at hs
      split at hs
      · next hcomma =>
        subst hcomma
        obtain ⟨t₁, ht₁, h₁⟩ := hR.past h he rfl
        split at hs
        · cases hs
        · cases hs
        · next hnil hclose =>
          cases hs
          cases he' : skipSpace s₁ with
          | nil => exact (hnil he').elim
          | cons d s₂ =>
            obtain ⟨t₂, ht₂, h₂⟩ := hR.next h₁ he'
            have hd : d ≠ ']' := fun e => hclose s₂ (e ▸ he')
            refine ⟨d :: t₂, ?_, hR.cons (by decide) (isSpace_of_skipSpace he') h₂⟩
            simp [nextElement, ht₁, ht₂, hd]
      · cases hs

theorem no_element {first : Bool} (h : Past R s t) (hs : nextElement first s = .ok none) :
    nextElement first t = .ok none := by
  unfold nextElement at hs
  split at hs
  · cases hs
  · next he =>
    obtain ⟨t₁, ht₁, -⟩ := hR.past h he rfl
    simp only [nextElement, ht₁]
  · split at hs
    · cases hs
    · split at hs
      · split at hs <;> cases hs
      · cases hs

theorem elements {ρ : Type} {fields : List (RecordField ρ)}
    (hfields : ∀ field ∈ fields, ∀ room, Follows R (field.read room)) {room : Nat} {first : Bool}
    {acc a : ρ} (h : Ahead R (dueElement first) s t)
    (hs : readElements room fields first acc s = .ok (a, r)) :
    ∃ r', readElements room fields first acc t = .ok (a, r') ∧ Past R r r' := by
  have hpast : Past R s t := by
    cases first with
    | true => exact .inl h
    | false => exact h
  induction fields generalizing first acc s t with
  | nil =>
    obtain ⟨rfl, rfl⟩ := Prod.mk.inj (Except.ok.inj hs)
    exact ⟨t, rfl, hpast⟩
  | cons field fields ih =>
    unfold readElements at hs
    split at hs
    · cases hs
    · next hnone =>
      obtain ⟨rfl, rfl⟩ := Prod.mk.inj (Except.ok.inj hs)
      exact ⟨t, by simp only [readElements, hR.no_element hpast hnone], hpast⟩
    · next he =>
      obtain ⟨t₁, ht₁, h₁⟩ := hR.element h he
      split at hs
      · cases hs
      · next hf =>
        obtain ⟨t₂, ht₂, h₂⟩ := hfields field List.mem_cons_self room h₁ hf
        have htail : ∀ field ∈ fields, ∀ room, Follows R (field.read room) :=
          fun field hmem => hfields field (List.mem_cons_of_mem _ hmem)
        have hnext : Ahead R (dueElement false) _ t₂ := h₂
        obtain ⟨r', hr', hrest⟩ := ih htail hnext hs h₂
        exact ⟨r', by simp only [readElements, ht₁, ht₂, hr'], hrest⟩

theorem arrayEnd (h : Past R s t) (hs : endArray s = .ok r) :
    ∃ r', endArray t = .ok r' ∧ R .apart r r' := by
  unfold endArray at hs
  split at hs
  · next he =>
    cases hs
    obtain ⟨r', hr', hrest⟩ := hR.past h he rfl
    exact ⟨r', by simp only [endArray, hr'], hrest⟩
  · cases hs
  · cases hs

/-- A record follows what its fields do. -/
theorem record {ρ : Type} {fields : List (RecordField ρ)}
    (hfields : ∀ field ∈ fields, ∀ room, Follows R (field.read room)) (title : String) (init : ρ)
    (room : Nat) : Follows R (readRecord title fields init room) := by
  intro s t a r h hs
  unfold readRecord at hs
  split at hs
  · next he =>
    obtain ⟨t₁, ht₁, h₁⟩ := hR.next h he
    unfold readArray at hs
    split at hs
    · cases hs
    · next hel =>
      split at hs
      · cases hs
      · next hend =>
        obtain ⟨rfl, rfl⟩ := Prod.mk.inj (Except.ok.inj hs)
        have hfirst : Ahead R (dueElement true) _ t₁ := h₁
        obtain ⟨t₂, ht₂, h₂⟩ := hR.elements hfields hfirst hel
        obtain ⟨r', hr', hrest⟩ := hR.arrayEnd h₂ hend
        exact ⟨r', by simp only [readRecord, ht₁, readArray, ht₂, hr'], .inl hrest⟩
  · next he =>
    obtain ⟨t₁, ht₁, h₁⟩ := hR.next h he
    unfold readObject at hs
    split at hs
    · cases hs
    · next hm =>
      cases hs
      obtain ⟨r', hr', hrest⟩ := hR.members hfields (.inl h₁) hm
      exact ⟨r', by simp only [readRecord, ht₁, readObject, hr'], .inl hrest⟩
  · cases hs
  · cases hs
  · cases hs

/-! ### Settings -/

open Settings

theorem count : Follows R readCount := by
  intro s t n r h hs
  unfold readCount at hs
  split at hs
  · cases hs
  · next c s₁ he =>
    obtain ⟨t₁, ht₁, h₁⟩ := hR.next h he
    split at hs
    · next hnum =>
      split at hs
      · cases hs
      · next hn =>
        split at hs
        · next hrange =>
          obtain ⟨rfl, rfl⟩ := Prod.mk.inj (Except.ok.inj hs)
          have h' : R .joined (c :: s₁) (c :: t₁) :=
            hR.cons (by decide) (isSpace_of_skipSpace he) h₁
          obtain ⟨r', hr', hrest⟩ := hR.number h' hn
          exact ⟨r', by simp only [readCount, ht₁, if_pos hnum, hr', if_pos hrange], .inr hrest⟩
        · cases hs
      · cases hs
    · cases hs

theorem map_word {α : Type} {w : List Char} {x a : α} (hw : w.all isSolid = true)
    (h : R .joined s t) (hs : (readWord w s).map (x, ·) = .ok (a, r)) :
    ∃ r', (readWord w t).map (x, ·) = .ok (a, r') ∧ R .joined r r' := by
  obtain ⟨_, hword, hp⟩ := map_eq_ok.mp hs
  obtain ⟨rfl, rfl⟩ := Prod.mk.inj hp
  obtain ⟨r', hr', hrest⟩ := hR.word hw h hword
  exact ⟨r', map_eq_ok.mpr ⟨r', hr', rfl⟩, hrest⟩

theorem flag (room : Nat) : Follows R (readFlag room) := by
  intro s t b r h hs
  unfold readFlag at hs
  split at hs
  · next he =>
    obtain ⟨t₁, ht₁, h₁⟩ := hR.next h he
    split at hs
    · cases hs
    · next htext =>
      split at hs
      · next hb =>
        obtain ⟨rfl, rfl⟩ := Prod.mk.inj (Except.ok.inj hs)
        obtain ⟨r', hr', hrest⟩ := hR.kept_text h₁ htext
        exact ⟨r', by simp only [readFlag, ht₁, hr', hb], .inl hrest⟩
      · cases hs
  · next he =>
    obtain ⟨t₁, ht₁, h₁⟩ := hR.next h he
    obtain ⟨r', hr', hrest⟩ := hR.map_word rfl h₁ hs
    exact ⟨r', by simp only [readFlag, ht₁, hr'], .inr hrest⟩
  · next he =>
    obtain ⟨t₁, ht₁, h₁⟩ := hR.next h he
    obtain ⟨r', hr', hrest⟩ := hR.map_word rfl h₁ hs
    exact ⟨r', by simp only [readFlag, ht₁, hr'], .inr hrest⟩
  · split at hs <;> cases hs

theorem options (room : Nat) : Follows R (readOptions room) := by
  have hcount : ∀ name set room, Follows R ((countField name set).read room) :=
    fun _ set _ => hR.count.map set fun s => by
      dsimp only [countField]
      cases readCount s <;> rfl
  have hflag : ∀ name set room, Follows R ((flagField name set).read room) :=
    fun _ set room => (hR.flag room).map set fun s => by
      dsimp only [flagField]
      cases readFlag room s <;> rfl
  refine hR.record ?_ _ _ room
  simp only [optionFields, List.forall_mem_cons, List.not_mem_nil, false_imp_iff, implies_true,
    and_true]
  exact ⟨hcount _ _, hcount _ _, hflag _ _, hflag _ _⟩

theorem optionsSection (room : Nat) : Follows R (Project.readSection room) := by
  intro s t o r h hs
  unfold Project.readSection at hs
  split at hs
  · next he =>
    obtain ⟨t₁, ht₁, h₁⟩ := hR.next h he
    obtain ⟨r', hr', hrest⟩ := hR.map_word rfl h₁ hs
    exact ⟨r', by simp only [Project.readSection, ht₁, hr'], .inr hrest⟩
  · split at hs
    · next ho =>
      obtain ⟨rfl, rfl⟩ := Prod.mk.inj (Except.ok.inj hs)
      obtain ⟨r', hr', hrest⟩ := hR.options room h ho
      refine ⟨r', ?_, hrest⟩
      have hnull : ∀ t₁, skipSpace t = 'n' :: t₁ → False := by
        intro t₁ ht
        simp [readOptions, readRecord, ht] at hr'
      simp only [Project.readSection, hr']
    · cases hs

/-- **The reader of projects follows every relation that it tracks.** -/
theorem project (room : Nat) : Follows R (Project.read room) := by
  refine hR.record ?_ _ _ room
  intro field hfield room
  obtain rfl := List.mem_singleton.mp hfield
  refine (hR.optionsSection room).map (fun o _ => ⟨o⟩) fun s => ?_
  dsimp only [Project.sectionField]
  cases Project.readSection room s <;> rfl

end Tracks

end Prototypal.Json
