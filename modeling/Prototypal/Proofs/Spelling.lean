import Prototypal.Proofs.Spacing
import Prototypal.Proofs.Trailing

/-!
# Prototypal — Proofs — Spelling

Readers of strings and numbers on what the grammar of strict JSON spells, with any text behind it
that does not go on with a word or a number (`Ends`).

What a string stands for is said of its spelling alone (`Denotes`): each character or escape gives
one character, and a leading surrogate must have a trailing one next to it.  A spelling that stands
for nothing may be skipped, but not kept.

* `skipText_spelled`, `readText_eq_ok_iff`: a string is skipped whatever its escapes are, and kept
  as what it stands for, if that is anything.
* `readNumeral_spelled`: a number is read up to its end, and its parts are kept as they are spelled.
-/

namespace Prototypal.Json

/-- What comes next, if anything, is no part of a word or of a number. -/
def Ends (rest : List Char) : Prop := ∀ c ∈ rest.head?, isSolid c = false

theorem ends_cons {c : Char} (hc : isSolid c = false) (s : List Char) : Ends (c :: s) := by
  rintro d hd
  obtain rfl : c = d := by simpa using hd
  exact hc

/-- Where text ends, no solid character comes next. -/
theorem Ends.head_ne {c : Char} {s rest : List Char} (h : Ends rest) (hc : isSolid c = true) :
    rest ≠ c :: s := by
  rintro rfl
  simp [h c rfl] at hc

theorem skipSpace_gap {g : List Char} (hg : Dialect.strict.Gap g) (s : List Char) :
    skipSpace (g ++ s) = skipSpace s :=
  List.dropWhile_append_of_pos (isSpace_of_gap hg)

theorem ends_gap_append {g s : List Char} (hg : Dialect.strict.Gap g) (hs : Ends s) :
    Ends (g ++ s) := by
  cases g with
  | nil => exact hs
  | cons c g => exact ends_cons (isSolid_of_isSpace (isSpace_of_gap hg c List.mem_cons_self)) _

/-! ### Strings -/

/-- Four hexadecimal digits and their number. -/
inductive IsUnit : List Char → Nat → Prop where
  | digits {a b c d : Char} {w x y z : Nat} (ha : hexDigit? a = some w) (hb : hexDigit? b = some x)
      (hc : hexDigit? c = some y) (hd : hexDigit? d = some z) :
      IsUnit [a, b, c, d] (((w * 16 + x) * 16 + y) * 16 + z)

/-- The characters that the spelling of a string stands for. -/
inductive Denotes : List Char → List Char → Prop where
  | nil : Denotes [] []
  | plain {c : Char} {s t : List Char} (hcontrol : 0x20 ≤ c.toNat) (hquote : c ≠ '"')
      (hescape : c ≠ '\\') (h : Denotes s t) : Denotes (c :: s) (c :: t)
  | short {c d : Char} {s t : List Char} (hc : shortEscape? c = some d) (h : Denotes s t) :
      Denotes ('\\' :: c :: s) (d :: t)
  | unit {u s t : List Char} {n : Nat} (hu : IsUnit u n) (hlead : isLeadingSurrogate n = false)
      (htrail : isTrailingSurrogate n = false) (h : Denotes s t) :
      Denotes ('\\' :: 'u' :: (u ++ s)) (Char.ofNat n :: t)
  | pair {u v s t : List Char} {m n : Nat} (hu : IsUnit u m) (hv : IsUnit v n)
      (hlead : isLeadingSurrogate m = true) (htrail : isTrailingSurrogate n = true)
      (h : Denotes s t) :
      Denotes ('\\' :: 'u' :: (u ++ '\\' :: 'u' :: (v ++ s))) (pairedSurrogates m n :: t)

theorem readUnit_spelled {u : List Char} {n : Nat} (hu : IsUnit u n) (rest : List Char) :
    readUnit (u ++ rest) = .ok (n, rest) := by
  obtain ⟨ha, hb, hc, hd⟩ := hu
  simp only [List.cons_append, List.nil_append, readUnit, ha, hb, hc, hd]

theorem exists_isUnit {a b c d : Char} (hhex : ∀ x ∈ [a, b, c, d], (hexDigit? x).isSome) :
    ∃ n, IsUnit [a, b, c, d] n := by
  simp only [List.forall_mem_cons, Option.isSome_iff_exists] at hhex
  obtain ⟨⟨w, ha⟩, ⟨x, hb⟩, ⟨y, hc⟩, ⟨z, hd⟩, -⟩ := hhex
  exact ⟨_, .digits ha hb hc hd⟩

theorem not_both_surrogates {n : Nat} (h : isLeadingSurrogate n = true) :
    isTrailingSurrogate n = false := by
  simp only [isLeadingSurrogate, isTrailingSurrogate, Bool.and_eq_true, decide_eq_true_eq,
    Bool.and_eq_false_iff, decide_eq_false_iff_not] at *
  omega

theorem ne_of_shortEscape? {c : Char} (hc : (shortEscape? c).isSome) : c ≠ 'u' :=
  fun e => absurd (e ▸ hc) (by decide)

theorem skipText_escape {s r : List Char} (h : skipEscape s = .ok r) :
    skipText ('\\' :: s) = skipText r := by
  rw [skipText, h]

theorem skipText_spelled {s : List Char} (h : IsText s) (rest : List Char) :
    skipText (s ++ '"' :: rest) = .ok rest := by
  induction h with
  | nil => rw [List.nil_append, skipText]
  | plain hcontrol hquote hescape _ ih =>
    rw [List.cons_append, skipText, if_neg (Nat.not_lt.mpr hcontrol), ih]
    · exact hquote
    · exact hescape
  | @short c s hc _ ih =>
    have hskip : skipEscape (c :: (s ++ '"' :: rest)) = .ok (s ++ '"' :: rest) := by
      rw [skipEscape, if_pos hc]
      exact ne_of_shortEscape? hc
    rw [List.cons_append, List.cons_append, skipText_escape hskip, ih]
  | @unit a b c d s hhex _ ih =>
    obtain ⟨n, hn⟩ := exists_isUnit hhex
    have hskip : skipEscape ('u' :: ([a, b, c, d] ++ (s ++ '"' :: rest))) =
        .ok (s ++ '"' :: rest) := by
      rw [skipEscape, readUnit_spelled hn]
      rfl
    exact (skipText_escape hskip).trans ih

theorem readText_escape {seen s r : List Char} {c : Char} (h : readEscape s = .ok (c, r)) :
    readText seen ('\\' :: s) = readText (c :: seen) r := by
  rw [readText, h]

theorem readText_escape_error {seen s : List Char} {f : Fault} (h : readEscape s = .error f) :
    readText seen ('\\' :: s) = .error f := by
  rw [readText, h]

theorem readEscape_short {c d : Char} (hc : shortEscape? c = some d) (s : List Char) :
    readEscape (c :: s) = .ok (d, s) := by
  have hne : c ≠ 'u' := ne_of_shortEscape? (hc ▸ rfl)
  rw [readEscape, hc]
  exact hne

theorem readEscape_unit {u s : List Char} {n : Nat} (hu : IsUnit u n)
    (hlead : isLeadingSurrogate n = false) (htrail : isTrailingSurrogate n = false) :
    readEscape ('u' :: (u ++ s)) = .ok (Char.ofNat n, s) := by
  rw [readEscape, readUnit_spelled hu]
  simp [hlead, htrail]

theorem readEscape_trailing {u : List Char} {n : Nat} (hu : IsUnit u n)
    (htrail : isTrailingSurrogate n = true) (s : List Char) :
    readEscape ('u' :: (u ++ s)) = .error (.malformed s) := by
  rw [readEscape, readUnit_spelled hu]
  simp [htrail]

theorem readEscape_pair {u v s : List Char} {m n : Nat} (hu : IsUnit u m) (hv : IsUnit v n)
    (hlead : isLeadingSurrogate m = true) (htrail : isTrailingSurrogate n = true) :
    readEscape ('u' :: (u ++ '\\' :: 'u' :: (v ++ s))) = .ok (pairedSurrogates m n, s) := by
  rw [readEscape, readUnit_spelled hu]
  simp [hlead, not_both_surrogates hlead, readTrailing, readUnit_spelled hv, htrail]

theorem readText_of_denotes {s t : List Char} (h : Denotes s t) (seen rest : List Char) :
    readText seen (s ++ '"' :: rest) = .ok (String.ofList (seen.reverse ++ t), rest) := by
  induction h generalizing seen with
  | nil => rw [List.nil_append, readText, List.append_nil]
  | plain hcontrol hquote hescape _ ih =>
    rw [List.cons_append, readText, if_neg (Nat.not_lt.mpr hcontrol), ih]
    · simp
    · exact hquote
    · exact hescape
  | short hc _ ih =>
    rw [List.cons_append, List.cons_append, readText_escape (readEscape_short hc _), ih]
    simp
  | unit hu hlead htrail _ ih =>
    rw [List.cons_append, List.cons_append, List.append_assoc,
      readText_escape (readEscape_unit hu hlead htrail), ih]
    simp
  | pair hu hv hlead htrail _ ih =>
    simp only [List.cons_append, List.append_assoc]
    rw [readText_escape (readEscape_pair hu hv hlead htrail), ih]
    simp

/-- A trailing surrogate is found only where one is spelled. -/
theorem exists_of_readTrailing {s rest r : List Char} {n : Nat} (h : IsText s)
    (hread : readTrailing (s ++ '"' :: rest) = .ok (n, r)) :
    ∃ v s', s = '\\' :: 'u' :: (v ++ s') ∧ IsUnit v n ∧ isTrailingSurrogate n = true ∧
      IsText s' := by
  cases h with
  | nil => cases hread
  | plain _ _ hescape _ =>
    unfold readTrailing at hread
    split at hread <;> simp_all
  | short hc _ =>
    have hne := ne_of_shortEscape? hc
    unfold readTrailing at hread
    split at hread <;> simp_all
  | @unit a b c d s' hhex h =>
    obtain ⟨m, hm⟩ := exists_isUnit hhex
    change readTrailing ('\\' :: 'u' :: ([a, b, c, d] ++ (s' ++ '"' :: rest))) = _ at hread
    rw [readTrailing, readUnit_spelled hm] at hread
    by_cases htrail : isTrailingSurrogate m = true
    · simp only [if_pos htrail] at hread
      obtain ⟨rfl, -⟩ := Prod.mk.inj (Except.ok.inj hread)
      exact ⟨[a, b, c, d], s', rfl, hm, htrail, h⟩
    · simp [htrail] at hread

/-- Behind a leading surrogate a trailing one is looked for. -/
theorem exists_readTrailing {seen u s r : List Char} {a : String} {m : Nat} (hu : IsUnit u m)
    (hlead : isLeadingSurrogate m = true)
    (hread : readText seen ('\\' :: 'u' :: (u ++ s)) = .ok (a, r)) :
    ∃ n r', readTrailing s = .ok (n, r') := by
  cases htrail : readTrailing s with
  | ok x => exact ⟨x.1, x.2, rfl⟩
  | error f =>
    have hescape : readEscape ('u' :: (u ++ s)) = .error f := by
      rw [readEscape, readUnit_spelled hu]
      simp [hlead, not_both_surrogates hlead, htrail]
    rw [readText_escape_error hescape] at hread
    cases hread

/-- What can be kept stands for something. -/
theorem exists_denotes {s : List Char} (h : IsText s) {seen rest r : List Char} {a : String}
    (hread : readText seen (s ++ '"' :: rest) = .ok (a, r)) : ∃ t, Denotes s t := by
  -- a pair of surrogates is two escapes, so the induction is on the length
  induction hlen : s.length using Nat.strongRecOn generalizing s seen with
  | ind n ih =>
    subst hlen
    cases h with
    | nil => exact ⟨[], .nil⟩
    | @plain c s hcontrol hquote hescape h =>
      rw [List.cons_append, readText, if_neg (Nat.not_lt.mpr hcontrol)] at hread
      · obtain ⟨t, ht⟩ := ih s.length (by simp) h hread rfl
        exact ⟨c :: t, .plain hcontrol hquote hescape ht⟩
      · exact hquote
      · exact hescape
    | @short c s hc h =>
      obtain ⟨d, hd⟩ := Option.isSome_iff_exists.mp hc
      rw [List.cons_append, List.cons_append, readText_escape (readEscape_short hd _)] at hread
      obtain ⟨t, ht⟩ := ih s.length (by simp only [List.length_cons]; omega) h hread rfl
      exact ⟨d :: t, .short hd ht⟩
    | @unit a b c d s hhex h =>
      obtain ⟨m, hm⟩ := exists_isUnit hhex
      change readText seen ('\\' :: 'u' :: ([a, b, c, d] ++ (s ++ '"' :: rest))) = _ at hread
      cases htrail : isTrailingSurrogate m with
      | true =>
        rw [readText_escape_error (readEscape_trailing hm htrail _)] at hread
        cases hread
      | false =>
        cases hlead : isLeadingSurrogate m with
        | false =>
          rw [readText_escape (readEscape_unit hm hlead htrail)] at hread
          obtain ⟨t, ht⟩ := ih s.length (by simp only [List.length_cons]; omega) h hread rfl
          exact ⟨_, .unit hm hlead htrail ht⟩
        | true =>
          obtain ⟨n, r', hpair⟩ := exists_readTrailing hm hlead hread
          obtain ⟨v, s', rfl, hv, hn, h'⟩ := exists_of_readTrailing h hpair
          have hassoc : '\\' :: 'u' :: (v ++ s') ++ '"' :: rest =
              '\\' :: 'u' :: (v ++ (s' ++ '"' :: rest)) := by simp
          have hshorter : s'.length < ('\\' :: 'u' :: a :: b :: c :: d ::
              '\\' :: 'u' :: (v ++ s')).length := by
            simp only [List.length_cons, List.length_append]
            omega
          rw [hassoc, readText_escape (readEscape_pair hm hv hlead hn)] at hread
          obtain ⟨t, ht⟩ := ih s'.length hshorter h' hread rfl
          exact ⟨_, .pair hm hv hlead hn ht⟩

/-- **A string is kept as what it stands for**, and refused if it stands for nothing. -/
theorem readText_eq_ok_iff {s : List Char} (h : IsText s) {seen rest r : List Char} {a : String} :
    readText seen (s ++ '"' :: rest) = .ok (a, r) ↔
      ∃ t, Denotes s t ∧ a = String.ofList (seen.reverse ++ t) ∧ r = rest := by
  constructor
  · intro hread
    obtain ⟨t, ht⟩ := exists_denotes h hread
    rw [readText_of_denotes ht] at hread
    obtain ⟨rfl, rfl⟩ := Prod.mk.inj (Except.ok.inj hread)
    exact ⟨t, ht, rfl, rfl⟩
  · rintro ⟨t, ht, rfl, rfl⟩
    exact readText_of_denotes ht seen r

/-- A spelling stands for one text at most. -/
theorem Denotes.unique {s t u : List Char} (ht : Denotes s t) (hu : Denotes s u) : t = u := by
  have h := (readText_of_denotes ht [] []).symm.trans (readText_of_denotes hu [] [])
  have h' := (Prod.mk.inj (Except.ok.inj h)).1
  exact String.ofList_inj.mp h'

/-! ### Numbers -/

theorem isDigit_of_not_isSolid {c : Char} (hc : isSolid c = false) : c.isDigit = false := by
  cases h : c.isDigit with
  | false => rfl
  | true => simp [isSolid_of_isDigit h] at hc

theorem readDigits_spelled (use : Use) {ds rest : List Char} (hds : IsDigits ds)
    (hrest : ∀ c ∈ rest.head?, c.isDigit = false) :
    readDigits use (ds ++ rest) = .ok (ds, rest) := by
  have htake : rest.takeWhile Char.isDigit = [] ∧ rest.dropWhile Char.isDigit = rest := by
    cases rest with
    | nil => exact ⟨rfl, rfl⟩
    | cons c rest =>
      have hc : ¬ c.isDigit = true := by simp [hrest c rfl]
      exact ⟨List.takeWhile_cons_of_neg hc, List.dropWhile_cons_of_neg hc⟩
  rw [readDigits, List.takeWhile_append_of_pos hds.2, List.dropWhile_append_of_pos hds.2, htake.1,
    htake.2, List.append_nil, if_neg (by simpa using hds.1)]

theorem isDigits_of_isWhole {s : List Char} (h : IsWhole s) : IsDigits s := by
  cases h with
  | zero => exact ⟨List.cons_ne_nil _ _, by simp⟩
  | digits hc _ hs => exact ⟨List.cons_ne_nil _ _, List.forall_mem_cons.mpr ⟨hc, hs⟩⟩

theorem readWhole_spelled (use : Use) {whole rest : List Char} (h : IsWhole whole)
    (hrest : ∀ c ∈ rest.head?, c.isDigit = false) :
    readWhole use (whole ++ rest) = .ok (whole, rest) := by
  refine readWhole_eq_ok.mpr ⟨readDigits_spelled use (isDigits_of_isWhole h) hrest, ?_⟩
  intro c s hcs
  cases h with
  | zero =>
    obtain rfl : rest = c :: s := (List.cons.inj hcs).2
    simp [hrest c rfl]
  | digits _ h0 _ => exact absurd (List.cons.inj hcs).1 h0

theorem readFraction_spelled (use : Use) {fraction rest : List Char} (h : IsFraction fraction)
    (hrest : ∀ c ∈ rest.head?, c.isDigit = false ∧ c ≠ '.') :
    readFraction use (fraction ++ rest) = .ok (fraction.tail, rest) := by
  cases h with
  | none =>
    rw [List.nil_append, readFraction]
    · rfl
    · rintro s rfl
      exact (hrest '.' rfl).2 rfl
  | digits hds => exact readDigits_spelled use hds fun c hc => (hrest c hc).1

theorem exponentSign_spelled {sign ds rest : List Char}
    (hsign : sign = [] ∨ sign = ['+'] ∨ sign = ['-']) (hds : IsDigits ds) :
    (exponentSign (sign ++ (ds ++ rest))).2 = ds ++ rest := by
  rcases hsign with rfl | rfl | rfl
  · obtain ⟨hne, hdigit⟩ := hds
    cases ds with
    | nil => exact absurd rfl hne
    | cons d ds =>
      have hd := hdigit d List.mem_cons_self
      rw [List.nil_append, List.cons_append, exponentSign]
      · rintro _ ⟨⟩
        exact absurd hd (by decide)
      · rintro _ ⟨⟩
        exact absurd hd (by decide)
  · rfl
  · rfl

theorem readExponent_spelled (use : Use) {exponent rest : List Char} (h : IsExponent exponent)
    (hrest : Ends rest) :
    ∃ e, readExponent use (exponent ++ rest) = .ok (e, rest) ∧ (e = none ↔ exponent = []) := by
  cases h with
  | none =>
    refine ⟨none, ?_, by simp⟩
    rw [List.nil_append, readExponent]
    · exact fun s => hrest.head_ne (by decide)
    · exact fun s => hrest.head_ne (by decide)
  | @digits e sign s he hsign hs =>
    have hread : readDigits use (exponentSign (sign ++ (s ++ rest))).2 = .ok (s, rest) := by
      rw [exponentSign_spelled hsign hs]
      exact readDigits_spelled use hs fun c hc => isDigit_of_not_isSolid (hrest c hc)
    refine ⟨some ((exponentSign (sign ++ (s ++ rest))).1, s), ?_, by simp⟩
    rw [List.append_assoc, List.cons_append]
    rcases he with rfl | rfl
    · rw [readExponent, hread]
      rfl
    · rw [readExponent, hread]
      rfl

/-- Behind the digits of a number, an exponent or what follows the number comes next. -/
theorem head?_exponent {exponent rest : List Char} (h : IsExponent exponent) (hrest : Ends rest) :
    ∀ c ∈ (exponent ++ rest).head?, c.isDigit = false ∧ c ≠ '.' := by
  intro c hc
  cases h with
  | none =>
    have hsolid := hrest c hc
    refine ⟨isDigit_of_not_isSolid hsolid, ?_⟩
    rintro rfl
    exact absurd hsolid (by decide)
  | digits he _ _ =>
    obtain rfl : _ = c := Option.some.inj hc
    rcases he with rfl | rfl <;> decide

theorem head?_fraction {fraction exponent rest : List Char} (hfraction : IsFraction fraction)
    (hexponent : IsExponent exponent) (hrest : Ends rest) :
    ∀ c ∈ (fraction ++ (exponent ++ rest)).head?, c.isDigit = false := by
  intro c hc
  cases hfraction with
  | none => exact (head?_exponent hexponent hrest c hc).1
  | digits _ =>
    obtain rfl : '.' = c := Option.some.inj hc
    rfl

theorem readUnsigned_spelled (use : Use) (negative : Bool)
    {whole fraction exponent rest : List Char} (hwhole : IsWhole whole)
    (hfraction : IsFraction fraction) (hexponent : IsExponent exponent) (hrest : Ends rest) :
    ∃ e, readUnsigned use negative (whole ++ (fraction ++ (exponent ++ rest))) =
      .ok (⟨negative, whole, fraction.tail, e⟩, rest) ∧ (e = none ↔ exponent = []) := by
  have hw := readWhole_spelled use hwhole (head?_fraction hfraction hexponent hrest)
  have hf := readFraction_spelled use hfraction (head?_exponent hexponent hrest)
  obtain ⟨e, he, hnone⟩ := readExponent_spelled use hexponent hrest
  exact ⟨e, by rw [readUnsigned, hw]; simp only [hf, he], hnone⟩

/-- **A number is read up to its end**, its parts as they are spelled. -/
theorem readNumeral_spelled (use : Use) {sign whole fraction exponent rest : List Char}
    (hsign : sign = [] ∨ sign = ['-']) (hwhole : IsWhole whole) (hfraction : IsFraction fraction)
    (hexponent : IsExponent exponent) (hrest : Ends rest) :
    ∃ e, readNumeral use (sign ++ whole ++ fraction ++ exponent ++ rest) =
      .ok (⟨sign = ['-'], whole, fraction.tail, e⟩, rest) ∧ (e = none ↔ exponent = []) := by
  simp only [List.append_assoc]
  rcases hsign with rfl | rfl
  · obtain ⟨e, he, hnone⟩ :=
      readUnsigned_spelled use false hwhole hfraction hexponent hrest
    refine ⟨e, ?_, hnone⟩
    rw [List.nil_append, readNumeral, he]
    · rfl
    · intro s hs
      cases hwhole with
      | zero => cases hs
      | digits hc =>
        obtain ⟨rfl, -⟩ := List.cons.inj hs
        exact absurd hc (by decide)
  · obtain ⟨e, he, hnone⟩ :=
      readUnsigned_spelled use true hwhole hfraction hexponent hrest
    exact ⟨e, he, hnone⟩

end Prototypal.Json
