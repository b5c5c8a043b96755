import Mathlib.Data.List.TakeWhile
import Prototypal.Proofs.Constants
import Prototypal.Proofs.Members
import Prototypal.Settings.Options

/-!
# Prototypal — Proofs — Admissible

The values that limits and flags of the options admit, and that their readers take these and no
others.

A limit is a number of 32 bits, spelled by its digits alone (`IsCount`).  A flag is a boolean or a
string that, without the white space around it and in lower case, is one of a few words
(`IsFlag`).  Lower case is Unicode's: of it only so much is asked as concerns the words
(`Lowering`).

* `readCount_spelled`, `readFlag_spelled`: a value is read just if it is admissible, and then for
  what it says.
-/

namespace Prototypal.Settings

open Json

/-! ### Limits -/

/-- A value that is a limit: the digits of a number of 32 bits. -/
def IsCount (t : Tree) (n : Nat) : Prop := t = .number (Nat.toDigits 10 n) ∧ n ≤ Count.top

/-- All digits fit in 64 bits just if the number they make does. -/
theorem significand_eq_iff {ds : List Char} {n w : Nat} (hn : n < UInt64.size) :
    significand n ds = (w, 0) ↔ Nat.ofDigitChars 10 ds n = w ∧ w < UInt64.size := by
  induction ds generalizing n with
  | nil =>
    rw [significand, Nat.ofDigitChars_nil, Prod.mk.injEq]
    constructor
    · rintro ⟨rfl, -⟩
      exact ⟨rfl, hn⟩
    · rintro ⟨rfl, -⟩
      exact ⟨rfl, rfl⟩
  | cons c ds ih =>
    have hstep : Nat.ofDigitChars 10 (c :: ds) n =
        Nat.ofDigitChars 10 ds (n * 10 + digitValue c) := by
      rw [Nat.ofDigitChars_cons, Nat.mul_comm, digitValue]
    rw [significand, hstep]
    split
    · next hlt => exact ih hlt
    · next hlt =>
      have hle : n * 10 + digitValue c ≤ Nat.ofDigitChars 10 ds (n * 10 + digitValue c) := by
        rw [Nat.ofDigitChars_eq_ofDigitChars_zero]
        exact Nat.le_add_right_of_le (Nat.le_mul_of_pos_left _ (Nat.pow_pos (by decide)))
      constructor
      · rintro ⟨⟩
      · rintro ⟨rfl, hw⟩
        exact absurd (Nat.lt_of_le_of_lt hle hw) hlt

theorem number?_eq_natural {N : Numeral} {n : Nat} :
    N.number? = some (.integer n) ↔
      N.negative = false ∧ N.fraction = [] ∧ N.exponent = none ∧
        Nat.ofDigitChars 10 N.whole 0 = n ∧ n < UInt64.size := by
  obtain ⟨negative, whole, fraction, exponent⟩ := N
  rw [← significand_eq_iff (by decide), Numeral.number?]
  cases significand 0 whole with
  | mk w dropped =>
    simp only [Prod.mk.injEq]
    split
    · next hwhole =>
      obtain ⟨⟨⟨hfraction, hexponent⟩, hdropped⟩, hsign⟩ := by
        simpa [Bool.and_eq_true] using hwhole
      simp [hfraction, hexponent, hdropped, hsign]
    · next hwhole =>
      have hno : ¬ (negative = false ∧ fraction = [] ∧ exponent = none ∧ w = n ∧ dropped = 0) := by
        rintro ⟨rfl, rfl, rfl, -, rfl⟩
        exact hwhole rfl
      refine iff_of_false ?_ hno
      split
      · next hneg =>
        have hw : 0 < w := by
          simp only [Bool.and_eq_true, decide_eq_true_eq] at hneg
          exact hneg.1.2
        intro h
        injection Option.some.inj h with h
        omega
      · intro h
        obtain ⟨d, -, hd⟩ := Option.map_eq_some_iff.mp h
        cases hd

section

variable {sign whole fraction exponent rest r : List Char} {n : Nat}

theorem readNumber_spelled (hsign : sign = [] ∨ sign = ['-']) (hwhole : IsWhole whole)
    (hfraction : IsFraction fraction) (hexponent : IsExponent exponent) (hrest : Ends rest) :
    readNumber (.kept 0) (sign ++ whole ++ fraction ++ exponent ++ rest) = .ok (.integer n, r) ↔
      (sign = [] ∧ fraction = [] ∧ exponent = [] ∧ Nat.ofDigitChars 10 whole 0 = n ∧
        n < UInt64.size) ∧ r = rest := by
  obtain ⟨e, hread, he⟩ := readNumeral_spelled (.kept 0) hsign hwhole hfraction hexponent hrest
  have hplus : decide (sign = ['-']) = false ↔ sign = [] := by
    rcases hsign with rfl | rfl <;> simp
  have hpoint : fraction.tail = [] ↔ fraction = [] := by
    cases hfraction with
    | none => simp
    | digits h => simp [h.1]
  have hvalue := number?_eq_natural (N := ⟨sign = ['-'], whole, fraction.tail, e⟩) (n := n)
  rw [hplus, hpoint, he] at hvalue
  simp only [readNumber, hread, ← hvalue]
  cases Numeral.number? ⟨sign = ['-'], whole, fraction.tail, e⟩ with
  | none => simp
  | some x => simp [eq_comm]

/-- A number is a limit just if it is spelled by digits alone, and not too large. -/
theorem isCount_number (hsign : sign = [] ∨ sign = ['-']) (hwhole : IsWhole whole)
    (hfraction : IsFraction fraction) (hexponent : IsExponent exponent) :
    IsCount (.number (sign ++ whole ++ fraction ++ exponent)) n ↔
      sign = [] ∧ fraction = [] ∧ exponent = [] ∧ Nat.ofDigitChars 10 whole 0 = n ∧
        n ≤ Count.top := by
  constructor
  · rintro ⟨hspelled, hn⟩
    have hs := Tree.number.inj hspelled
    have hdigits : ∀ c ∈ sign ++ whole ++ fraction ++ exponent, c.isDigit = true := fun c hc =>
      Nat.isDigit_of_mem_toDigits (by decide) (by decide) (hs ▸ hc)
    obtain rfl : sign = [] := hsign.resolve_right fun h => by
      have := hdigits '-' (by simp [h])
      cases this
    obtain rfl : fraction = [] := by
      cases hfraction with
      | none => rfl
      | digits => cases hdigits '.' (by simp)
    obtain rfl : exponent = [] := by
      cases hexponent with
      | none => rfl
      | digits he =>
        rcases he with rfl | rfl
        · cases hdigits 'e' (by simp)
        · cases hdigits 'E' (by simp)
    simp only [List.nil_append, List.append_nil] at hs
    exact ⟨rfl, rfl, rfl, hs ▸ Nat.ofDigitChars_ten_toDigits, hn⟩
  · rintro ⟨rfl, rfl, rfl, hvalue, hn⟩
    obtain ⟨hne, hdigits⟩ := isDigits_of_isWhole hwhole
    refine ⟨?_, hn⟩
    simp only [List.nil_append, List.append_nil]
    congr 1
    refine eq_toDigits hne (List.all_eq_true.mpr hdigits) (fun hzero => ?_) hvalue
    cases hwhole with
    | zero => rfl
    | digits _ h0 => exact absurd (Option.some.inj hzero) h0

end

theorem readCount_eq_ok {s t r : List Char} {c : Char} {n : Nat} (hs : skipSpace s = c :: t)
    (hc : (c = '-' || c.isDigit) = true) :
    readCount s = .ok (n, r) ↔
      readNumber (.kept 0) (c :: t) = .ok (.integer n, r) ∧ n ≤ Count.top := by
  simp only [readCount, hs, hc, if_true]
  cases readNumber (.kept 0) (c :: t) with
  | error f => simp
  | ok x =>
    obtain ⟨x, r'⟩ := x
    cases x with
    | double d => simp
    | integer k =>
      simp only [Except.ok.injEq, Prod.mk.injEq, Number.integer.injEq]
      split
      · next hk =>
        have hn : k.toNat = n ↔ k = n ∧ n ≤ Count.top := by omega
        rw [Except.ok.injEq, Prod.mk.injEq, hn, and_right_comm]
      · next hk =>
        simp only [reduceCtorEq, false_iff]
        omega

/-- **Limits** are read for what they are, and nothing else is. -/
theorem readCount_spelled {t : Tree} {g s rest r : List Char} {n : Nat}
    (hg : Dialect.strict.Gap g) (h : Spells .strict (.value t) s) (hrest : Ends rest) :
    readCount (g ++ (s ++ rest)) = .ok (n, r) ↔ IsCount t n ∧ r = rest := by
  have hskip := skipSpace_value hg h rest
  cases h with
  | null | true | false | text | emptyArray | array | emptyObject | object =>
    rw [readCount, hskip]
    exact iff_of_false (by rintro ⟨⟩) (by simp [IsCount])
  | number h =>
    obtain ⟨c, s', hs, hc⟩ := exists_cons_of_isNumber h
    have htop : ∀ {n}, n ≤ Count.top → n < UInt64.size := fun h => Nat.lt_of_le_of_lt h (by decide)
    rw [hs, List.cons_append] at hskip
    rw [hs, List.cons_append, readCount_eq_ok hskip hc, ← List.cons_append, ← hs]
    obtain ⟨hsign, hwhole, hfraction, hexponent⟩ := h
    rw [readNumber_spelled hsign hwhole hfraction hexponent hrest,
      isCount_number hsign hwhole hfraction hexponent]
    constructor
    · rintro ⟨⟨⟨hsign, hfraction, hexponent, hvalue, -⟩, hr⟩, hn⟩
      exact ⟨⟨hsign, hfraction, hexponent, hvalue, hn⟩, hr⟩
    · rintro ⟨⟨hsign, hfraction, hexponent, hvalue, hn⟩, hr⟩
      exact ⟨⟨⟨hsign, hfraction, hexponent, hvalue, htop hn⟩, hr⟩, hn⟩

/-! ### Flags -/

/-- The words for a flag. -/
def flagWords : Bool → List String
  | true => ["true", "1", "yes", "on"]
  | false => ["false", "0", "no", "off"]

theorem flag?_eq_some_iff {s : String} {b : Bool} :
    flag? s = some b ↔ Text.keyword s ∈ flagWords b := by
  unfold flag?
  split <;> cases b <;> simp_all [flagWords]

example : flag? " YES\n" = some true := by decide +kernel

/-- `core` is `s` without the white space around it. -/
inductive Trims : List Char → List Char → Prop where
  | parts {before core after : List Char} (hbefore : ∀ c ∈ before, Text.isBlank c = true)
      (hafter : ∀ c ∈ after, Text.isBlank c = true)
      (hhead : ∀ c ∈ core.head?, Text.isBlank c = false)
      (hlast : ∀ c ∈ core.getLast?, Text.isBlank c = false) : Trims (before ++ core ++ after) core

theorem dropWhile_eq_self {p : Char → Bool} {s : List Char} (h : ∀ c ∈ s.head?, p c = false) :
    s.dropWhile p = s := by
  cases s with
  | nil => rfl
  | cons c s => exact List.dropWhile_cons_of_neg (by simp [h c rfl])

theorem not_of_mem_head?_dropWhile {p : Char → Bool} {s : List Char} {c : Char}
    (h : c ∈ (s.dropWhile p).head?) : p c = false := by
  have hnot := List.head?_dropWhile_not p s
  rw [h] at hnot
  exact hnot

theorem trims_iff {s core : List Char} : Trims s core ↔ core = Text.trimmed s := by
  constructor
  · rintro ⟨hbefore, hafter, hhead, hlast⟩
    rw [Text.trimmed, List.append_assoc, List.dropWhile_append_of_pos hbefore]
    cases core with
    | nil =>
      rw [List.nil_append, List.dropWhile_eq_nil_iff.mpr hafter]
      rfl
    | cons c core =>
      rw [dropWhile_eq_self (s := c :: core ++ _) (by simpa using hhead), List.reverse_append,
        List.dropWhile_append_of_pos (by simpa using hafter),
        dropWhile_eq_self (by simpa only [List.head?_reverse] using hlast), List.reverse_reverse]
  · rintro rfl
    generalize hafter : ((s.dropWhile Text.isBlank).reverse.takeWhile Text.isBlank).reverse = after
    have hsplit : s.dropWhile Text.isBlank = Text.trimmed s ++ after := by
      rw [← hafter, Text.trimmed, ← List.reverse_append, List.takeWhile_append_dropWhile,
        List.reverse_reverse]
    have hblank : ∀ c ∈ after, Text.isBlank c = true := fun c hc =>
      List.mem_takeWhile_imp (List.mem_reverse.mp (hafter ▸ hc))
    have hhead : ∀ c ∈ (Text.trimmed s).head?, Text.isBlank c = false := by
      intro c hc
      refine not_of_mem_head?_dropWhile (s := s) ?_
      rw [hsplit, List.head?_append, Option.mem_def.mp hc]
      rfl
    have hlast : ∀ c ∈ (Text.trimmed s).getLast?, Text.isBlank c = false := by
      intro c hc
      rw [Text.trimmed, List.getLast?_reverse] at hc
      exact not_of_mem_head?_dropWhile hc
    have hbefore : ∀ c ∈ s.takeWhile Text.isBlank, Text.isBlank c = true := fun c =>
      List.mem_takeWhile_imp
    have hparts := Trims.parts hbefore hblank hhead hlast
    rwa [List.append_assoc, ← hsplit, List.takeWhile_append_dropWhile] at hparts

/-- What a character becomes in lower case.  Besides the letters from A to Z only the Kelvin sign
becomes a letter from a to z, and whatever else any other character becomes, it is not just
ASCII. -/
inductive LowersTo : Char → List Char → Prop where
  | ascii {c : Char} (hc : c.toNat < 128) : LowersTo c [c.toLower]
  | kelvin : LowersTo '\u212a' ['k']
  | wide {c : Char} {l : List Char} (hc : 128 ≤ c.toNat) (hkelvin : c ≠ '\u212a')
      (hl : ∃ d ∈ l, 128 ≤ d.toNat) : LowersTo c l

inductive Lowers : List Char → List Char → Prop where
  | nil : Lowers [] []
  | cons {c : Char} {l s r : List Char} (hc : LowersTo c l) (hs : Lowers s r) :
      Lowers (c :: s) (l ++ r)

/-- A way to write text in lower case.  What a character becomes may depend on its neighbours. -/
structure Lowering where
  lower : List Char → List Char
  lowers : ∀ s, Lowers s (lower s)

theorem toNat_lt_of_toLower {c : Char} (h : c.toLower.toNat < 128) : c.toNat < 128 := by
  unfold Char.toLower at h
  split at h
  · next hc =>
    have hle : c.toNat ≤ 'Z'.toNat := hc.2
    exact Nat.lt_of_le_of_lt hle (by decide)
  · exact h

/-- Lower case by single characters, of which none but the Kelvin sign becomes ASCII. -/
def Lowering.single : Lowering where
  lower s := s.flatMap fun c => if c = '\u212a' then ['k'] else [c.toLower]
  lowers s := by
    induction s with
    | nil => exact .nil
    | cons c s ih =>
      rw [List.flatMap_cons]
      refine .cons ?_ ih
      split
      · next hc => exact hc ▸ .kelvin
      · next hc =>
        by_cases hascii : c.toNat < 128
        · exact .ascii hascii
        · have hwide : 128 ≤ c.toLower.toNat :=
            Nat.not_lt.mp fun h => hascii (toNat_lt_of_toLower h)
          exact .wide (Nat.not_lt.mp hascii) hc ⟨_, List.mem_cons_self, hwide⟩

theorem Lowers.eq_map {s l : List Char} (h : Lowers s l) (hl : ∀ c ∈ l, c.toNat < 128 ∧ c ≠ 'k') :
    l = s.map Char.toLower := by
  induction h with
  | nil => rfl
  | cons hc hs ih =>
    rw [List.forall_mem_append] at hl
    rw [List.map_cons, ← ih hl.2]
    cases hc with
    | ascii => rfl
    | kelvin => exact absurd rfl (hl.1 'k' List.mem_cons_self).2
    | wide _ _ hwide =>
      obtain ⟨d, hd, hd'⟩ := hwide
      exact absurd (hl.1 d hd).1 (Nat.not_lt.mpr hd')

theorem Lowers.eq_map_of_ascii {s l : List Char} (h : Lowers s l)
    (hs : ∀ c ∈ s.map Char.toLower, c.toNat < 128) : l = s.map Char.toLower := by
  induction h with
  | nil => rfl
  | cons hc _ ih =>
    rw [List.map_cons, List.forall_mem_cons] at hs
    rw [List.map_cons, ← ih hs.2]
    have hascii := toNat_lt_of_toLower hs.1
    cases hc with
    | ascii => rfl
    | kelvin => exact absurd hascii (by decide)
    | wide hwide => exact absurd hascii (Nat.not_lt.mpr hwide)

/-- Whether a text in lower case is one of the words is known from the letters A to Z. -/
theorem lower_mem_flagWords {s : List Char} {b : Bool} (L : Lowering) :
    String.ofList (L.lower s) ∈ flagWords b ↔
      String.ofList (s.map Char.toLower) ∈ flagWords b := by
  have hwords : ∀ w ∈ flagWords b, ∀ c ∈ w.toList, c.toNat < 128 ∧ c ≠ 'k' := by
    have hall : (flagWords b).all (·.toList.all fun c => c.toNat < 128 && c != 'k') = true := by
      cases b <;> rfl
    simpa using hall
  constructor
  · intro h
    have hplain := hwords _ h
    rw [String.toList_ofList] at hplain
    rwa [← (L.lowers s).eq_map hplain]
  · intro h
    have hplain := hwords _ h
    rw [String.toList_ofList] at hplain
    rwa [(L.lowers s).eq_map_of_ascii fun c hc => (hplain c hc).1]

/-- A value that is a flag. -/
inductive IsFlag (L : Lowering) : Tree → Bool → Prop where
  | boolean (b : Bool) : IsFlag L (.boolean b) b
  | word {spelling word core : List Char} {b : Bool} (hword : Denotes spelling word)
      (hcore : Trims word core) (h : String.ofList (L.lower core) ∈ flagWords b) :
      IsFlag L (.text spelling) b

theorem isFlag_text {L : Lowering} {spelling : List Char} {b : Bool} :
    IsFlag L (.text spelling) b ↔
      ∃ word, Denotes spelling word ∧ flag? (String.ofList word) = some b := by
  have hflag : ∀ word core, Trims word core →
      (String.ofList (L.lower core) ∈ flagWords b ↔ flag? (String.ofList word) = some b) := by
    intro word core hcore
    rw [flag?_eq_some_iff, Text.keyword, String.toList_ofList, ← trims_iff.mp hcore,
      lower_mem_flagWords]
  constructor
  · intro h
    cases h with
    | word hword hcore h => exact ⟨_, hword, (hflag _ _ hcore).mp h⟩
  · rintro ⟨word, hword, h⟩
    have hcore := trims_iff.mpr (rfl : Text.trimmed word = Text.trimmed word)
    exact .word hword hcore ((hflag word _ hcore).mpr h)

theorem readFlag_eq_ok_of_quote {room : Nat} {s t r : List Char} {b : Bool}
    (hs : skipSpace s = '"' :: t) :
    readFlag room s = .ok (b, r) ↔ ∃ word, readText [] t = .ok (word, r) ∧ flag? word = some b := by
  simp only [readFlag, hs]
  cases readText [] t with
  | error f => simp
  | ok x =>
    obtain ⟨word, r'⟩ := x
    cases hflag : flag? word with
    | none => simp [hflag]
    | some b' => simp [hflag, and_comm]

/-- Whatever begins unlike a flag is passed over and refused. -/
theorem readFlag_ne_ok {room : Nat} {s t r : List Char} {c : Char} {b : Bool}
    (hs : skipSpace s = c :: t) (hc : c ∉ ['"', 't', 'f']) : readFlag room s ≠ .ok (b, r) := by
  intro h
  unfold readFlag at h
  rw [hs] at h
  split at h
  · next he => exact hc (by simp [(List.cons.inj he).1])
  · next he => exact hc (by simp [(List.cons.inj he).1])
  · next he => exact hc (by simp [(List.cons.inj he).1])
  · split at h <;> cases h

/-- **Flags** are read for what they are, and nothing else is. -/
theorem readFlag_spelled {L : Lowering} {room : Nat} {t : Tree} {g s rest r : List Char} {b : Bool}
    (hg : Dialect.strict.Gap g) (h : Spells .strict (.value t) s) :
    readFlag room (g ++ (s ++ rest)) = .ok (b, r) ↔ IsFlag L t b ∧ r = rest := by
  have hskip := skipSpace_value hg h rest
  cases h with
  | true | false =>
    rw [readFlag, hskip]
    constructor
    · rintro ⟨⟩
      exact ⟨.boolean _, rfl⟩
    · rintro ⟨⟨⟩, rfl⟩
      rfl
  | @text s h =>
    have hquote : skipSpace (g ++ ('"' :: s ++ ['"'] ++ rest)) = '"' :: (s ++ '"' :: rest) := by
      rw [hskip]
      simp
    rw [readFlag_eq_ok_of_quote hquote, isFlag_text]
    constructor
    · rintro ⟨word, hread, hflag⟩
      obtain ⟨w, hw, rfl, rfl⟩ := (readText_eq_ok_iff h).mp hread
      exact ⟨⟨w, hw, hflag⟩, rfl⟩
    · rintro ⟨⟨w, hw, hflag⟩, rfl⟩
      exact ⟨_, (readText_eq_ok_iff h).mpr ⟨w, hw, rfl, rfl⟩, hflag⟩
  | number h =>
    obtain ⟨c, s, rfl, hc⟩ := exists_cons_of_isNumber h
    refine iff_of_false (readFlag_ne_ok hskip ?_) (by rintro ⟨⟨⟩, -⟩)
    intro hmem
    simp only [List.mem_cons, List.not_mem_nil, or_false] at hmem
    rcases hmem with rfl | rfl | rfl <;> cases hc
  | null | emptyArray | array | emptyObject | object =>
    exact iff_of_false (readFlag_ne_ok hskip (by decide)) (by rintro ⟨⟨⟩, -⟩)

end Prototypal.Settings
