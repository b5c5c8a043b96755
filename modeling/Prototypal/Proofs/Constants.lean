import Mathlib.Algebra.Order.Field.Rat
import Mathlib.Data.List.Induction
import Mathlib.Tactic.FieldSimp
import Mathlib.Tactic.Ring
import Prototypal.Analysis.Query

/-!
# Prototypal — Proofs — Constants

What constants stand for when something is indexed by them.

A finite double has an exact value, a rational number, which its sign, exponent and fraction give by
the interchange format (`Double.rat?`); `Double.nat?` works on integers, and finds that value
where it is a natural number (`Double.nat?_eq_some_iff`).  A numeral is a text of digits that does
not begin with a zero, unless that is all of it (`IsNumeral`); each number has one, which is what it
is written as (`isNumeral_iff`).

* `position?_eq_some_iff`: a constant stands for a position when it is a number and that is its
  exact value.
* `indexName?_eq_some_iff`: a constant stands for a member name when it is that text, or a number
  whose exact value is a natural number of 32 bits and has that numeral.
-/

namespace Prototypal

/-! ### Exact values -/

namespace Double

variable {d : Double} {n : Nat}

/-- The magnitude that exponent and fraction give: where the exponent field is zero, the
significand has no leading one. -/
def magnitude (d : Double) : ℚ :=
  if d.exponentField = 0 then d.fraction / 2 ^ 52 * (2 : ℚ) ^ (-1022 : ℤ)
  else (1 + d.fraction / 2 ^ 52) * (2 : ℚ) ^ ((d.exponentField : ℤ) - 1023)

/-- The exact value of a finite double.  Infinities and what is no number have none. -/
def rat? (d : Double) : Option ℚ :=
  if d.isFinite then some (if d.isNegative then -d.magnitude else d.magnitude) else none

/-- The magnitude is the significand, scaled. -/
theorem magnitude_eq_scaled (d : Double) :
    d.magnitude = d.significand * (2 : ℚ) ^ ((d.exponent : ℤ) - 1075) := by
  have shift : ∀ e : ℤ, (2 : ℚ) ^ (e - 1023) = 2 ^ 52 * (2 : ℚ) ^ (e - 1075) := by
    intro e
    rw [show e - 1023 = 52 + (e - 1075) by ring, zpow_add₀ two_ne_zero]
    rfl
  by_cases h : d.exponentField = 0
  · have hs := shift 1
    rw [magnitude, if_pos h, significand, if_pos h, exponent, h]
    norm_num at hs ⊢
    rw [hs]
    field_simp
  · have he : d.exponent = d.exponentField := Nat.max_eq_left (Nat.pos_of_ne_zero h)
    have hp : ((Nat.pow 2 52 : Nat) : ℚ) = 2 ^ 52 := Nat.cast_pow 2 52
    rw [magnitude, if_neg h, significand, if_neg h, he, shift, Nat.cast_add, hp]
    field_simp

/-- The same without fractions: one of the two powers is `1`. -/
theorem magnitude_eq_natCast_iff :
    d.magnitude = n ↔
      d.significand * 2 ^ (d.exponent - 1075) = n * 2 ^ (1075 - d.exponent) := by
  have hz : ((d.exponent - 1075 : Nat) : ℤ) - ((1075 - d.exponent : Nat) : ℤ) =
      (d.exponent : ℤ) - 1075 := by omega
  rw [magnitude_eq_scaled, ← hz, zpow_sub₀ two_ne_zero, zpow_natCast, zpow_natCast, ← mul_div_assoc,
    div_eq_iff (pow_ne_zero _ two_ne_zero)]
  exact_mod_cast Iff.rfl

theorem magnitude_nonneg (d : Double) : 0 ≤ d.magnitude := by
  rw [magnitude_eq_scaled]
  exact mul_nonneg (Nat.cast_nonneg _) (zpow_nonneg zero_le_two _)

theorem magnitude_eq_zero_iff : d.magnitude = 0 ↔ d.significand = 0 := by
  rw [magnitude_eq_scaled, mul_eq_zero, or_iff_left (zpow_ne_zero _ two_ne_zero), Nat.cast_eq_zero]

/-- A double with a sign is no natural number, unless it is zero. -/
theorem rat?_eq_natCast_iff :
    d.rat? = some (n : ℚ) ↔
      d.isFinite = true ∧ (d.isNegative = true → d.significand = 0) ∧ d.magnitude = n := by
  rw [rat?]
  cases d.isFinite with
  | false => simp
  | true =>
      cases d.isNegative with
      | false => simp
      | true =>
          simp only [if_true, Option.some.injEq, true_and, true_imp_iff]
          constructor
          · intro h
            have hn : 0 ≤ -d.magnitude := h ▸ Nat.cast_nonneg n
            have hm : d.magnitude = 0 := le_antisymm (neg_nonneg.mp hn) d.magnitude_nonneg
            exact ⟨magnitude_eq_zero_iff.mp hm, by rw [← h, hm, neg_zero]⟩
          · rintro ⟨hs, hm⟩
            rw [magnitude_eq_zero_iff.mpr hs] at hm ⊢
            rw [← hm, neg_zero]

/-- **What `nat?` finds is the exact value**, where that is a natural number. -/
theorem nat?_eq_some_iff : d.nat? = some n ↔ d.rat? = some (n : ℚ) := by
  rw [rat?_eq_natCast_iff, magnitude_eq_natCast_iff, nat?]
  cases d.isFinite with
  | false => simp
  | true =>
      by_cases hs : d.isNegative = true → d.significand = 0
      · have hn : (d.isNegative && d.significand != 0) = false := by
          cases h : d.isNegative with
          | false => rfl
          | true => simp [hs h]
        rw [hn]
        simp only [Bool.not_true, Bool.or_self, Bool.false_eq_true, if_false, true_and,
          and_iff_right hs]
        by_cases he : 1075 ≤ d.exponent
        · rw [if_pos he, Nat.sub_eq_zero_of_le he, pow_zero, Nat.mul_one, Option.some.injEq]
          rfl
        · rw [if_neg he, Nat.sub_eq_zero_of_le (Nat.le_of_not_le he), pow_zero, Nat.mul_one]
          show (if d.significand % 2 ^ (1075 - d.exponent) = 0 then
            some (d.significand / 2 ^ (1075 - d.exponent)) else none) = some n ↔ _
          have hpos : 0 < 2 ^ (1075 - d.exponent) := Nat.two_pow_pos _
          split
          · next hd =>
            rw [Option.some.injEq, Nat.div_eq_iff_eq_mul_left hpos (Nat.dvd_of_mod_eq_zero hd)]
          · next hd =>
            refine iff_of_false nofun fun h => hd ?_
            rw [h, Nat.mul_mod_left]
      · obtain ⟨hneg, hne⟩ := Classical.not_imp.mp hs
        simp [hneg, hne]

end Double

/-! ### Numerals -/

/-- `s` is `n` in decimal digits, without a sign and without leading zeros. -/
structure IsNumeral (s : String) (n : Nat) : Prop where
  nonempty : s.toList ≠ []
  digits : s.toList.all Char.isDigit = true
  leading : s.toList.head? = some '0' → s.toList = ['0']
  value : Nat.ofDigitChars 10 s.toList 0 = n

theorem digitChar_sub_of_isDigit {c : Char} (h : c.isDigit = true) :
    c.toNat - '0'.toNat < 10 ∧ (c.toNat - '0'.toNat).digitChar = c := by
  have hc : 48 ≤ c.toNat ∧ c.toNat ≤ 57 := by
    simpa [Char.isDigit, UInt32.le_iff_toNat_le] using h
  have hlt : c.toNat - '0'.toNat < 10 := by
    show c.toNat - 48 < 10
    omega
  refine ⟨hlt, Char.toNat_inj.mp ?_⟩
  rw [Nat.toNat_digitChar_of_lt_ten hlt]
  show 48 + (c.toNat - 48) = c.toNat
  omega

/-- A number of several digits does not begin with a zero. -/
theorem head?_toDigits {n : Nat} (h : (Nat.toDigits 10 n).head? = some '0') :
    Nat.toDigits 10 n = ['0'] := by
  induction n using Nat.strongRecOn with
  | ind n ih =>
      rcases Nat.lt_or_ge n 10 with hn | hn
      · rw [Nat.toDigits_of_lt_base hn] at h ⊢
        rw [Option.some.inj h]
      · rw [Nat.toDigits_of_base_le (by decide) hn,
          List.head?_append_of_ne_nil _ Nat.toDigits_ne_nil] at h
        -- what comes before the last digit would be a zero alone
        have hz := ih (n / 10) (Nat.div_lt_self (by omega) (by decide)) h
        have hv : Nat.ofDigitChars 10 (Nat.toDigits 10 (n / 10)) 0 = 0 := by rw [hz]; rfl
        rw [Nat.ofDigitChars_ten_toDigits] at hv
        omega

/-- Digits without leading zeros are those of the number that they make. -/
theorem eq_toDigits {s : List Char} {n : Nat} (hne : s ≠ []) (hd : s.all Char.isDigit = true)
    (hl : s.head? = some '0' → s = ['0']) (hv : Nat.ofDigitChars 10 s 0 = n) :
    s = Nat.toDigits 10 n := by
  induction s using List.reverseRecOn generalizing n with
  | nil => exact absurd rfl hne
  | append_singleton t c ih =>
      rw [List.all_append, Bool.and_eq_true] at hd
      obtain ⟨hlt, hc⟩ := digitChar_sub_of_isDigit (c := c) (by simpa using hd.2)
      rw [Nat.ofDigitChars_append, Nat.ofDigitChars_cons, Nat.ofDigitChars_nil] at hv
      by_cases ht : t = []
      · subst ht
        rw [← hv, Nat.ofDigitChars_nil, Nat.mul_zero, Nat.zero_add, Nat.toDigits_of_lt_base hlt, hc]
        rfl
      · -- the digits before the last do not begin with a zero, so the number is ten at least
        have hz : t.head? ≠ some '0' := by
          intro hz
          have := congrArg List.length (hl (by rw [List.head?_append_of_ne_nil _ ht, hz]))
          simp [ht] at this
        have hprev := ih ht hd.1 (fun h => absurd h hz) rfl
        have hpos : Nat.ofDigitChars 10 t 0 ≠ 0 := by
          intro h0
          rw [h0] at hprev
          exact hz (by rw [hprev]; rfl)
        rw [Nat.toDigits_of_base_le (by decide) (by omega), ← hv,
          show (10 * Nat.ofDigitChars 10 t 0 + (c.toNat - '0'.toNat)) / 10 =
            Nat.ofDigitChars 10 t 0 by omega,
          show (10 * Nat.ofDigitChars 10 t 0 + (c.toNat - '0'.toNat)) % 10 =
            c.toNat - '0'.toNat by omega, ← hprev, hc]

/-- **Each number has one numeral**, which is what it is written as. -/
theorem isNumeral_iff {s : String} {n : Nat} : IsNumeral s n ↔ s = toString n := by
  have hn : (toString n).toList = Nat.toDigits 10 n := by
    rw [Nat.toString_eq_ofList_toDigits, String.toList_ofList]
  constructor
  · intro h
    rw [← String.toList_inj, hn]
    exact eq_toDigits h.nonempty h.digits h.leading h.value
  · rintro rfl
    refine ⟨?_, ?_, ?_, ?_⟩ <;> rw [hn]
    · exact Nat.toDigits_ne_nil
    · rw [List.all_eq_true]
      exact fun c hc => Nat.isDigit_of_mem_toDigits (by decide) (by decide) hc
    · exact head?_toDigits
    · exact Nat.ofDigitChars_ten_toDigits

/-! ### Indices -/

namespace Analysis

variable {a : Analysis} {i : ValueId} {n : Nat} {s : String}

/-- Constant `i` is a number whose exact value is `n`. -/
def IsNatural (a : Analysis) (i : ValueId) (n : Nat) : Prop :=
  ∃ d, a.kind? i = some (.number d) ∧ d.rat? = some (n : ℚ)

/-- Constant `i` stands for the member name `s`. -/
inductive Names (a : Analysis) (i : ValueId) : String → Prop where
  | text {s : String} (h : a.kind? i = some (.text s)) : Names a i s
  | natural {n : Nat} {s : String} (h : a.IsNatural i n) (hn : n ≤ 2 ^ 32 - 1)
      (hs : IsNumeral s n) : Names a i s

/-- **Positions are the exact values of number constants.** -/
theorem position?_eq_some_iff : a.position? i = some n ↔ a.IsNatural i n := by
  rw [position?, IsNatural]
  cases a.kind? i with
  | none => simp
  | some k => cases k <;> simp [Kind.number?, Double.nat?_eq_some_iff]

/-- **Index names are texts, and numerals of exact values that have 32 bits.** -/
theorem indexName?_eq_some_iff : a.indexName? i = some s ↔ a.Names i s := by
  rw [indexName?]
  constructor
  · intro h
    split at h
    · next t hk =>
      cases h
      exact .text hk
    · next d hk =>
      obtain ⟨n, hn, rfl⟩ := Option.map_eq_some_iff.mp h
      obtain ⟨hd, hle⟩ := Option.filter_eq_some_iff.mp hn
      exact .natural ⟨d, hk, Double.nat?_eq_some_iff.mp hd⟩ (of_decide_eq_true hle)
        (isNumeral_iff.mpr rfl)
    · cases h
  · intro h
    cases h with
    | text hk => rw [hk]
    | @natural n _ h hn hs =>
        obtain ⟨d, hk, hd⟩ := h
        have hle : decide (n ≤ Count.top) = true := decide_eq_true hn
        rw [hk, isNumeral_iff.mp hs]
        dsimp only
        rw [Double.nat?_eq_some_iff.mpr hd, Option.filter_some, if_pos hle, Option.map_some]

end Analysis

end Prototypal
