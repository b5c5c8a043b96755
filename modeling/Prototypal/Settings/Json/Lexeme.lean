import Prototypal.Settings.Json.Fault

/-!
# Prototypal — Settings — Json — Lexeme

Spaces, words and strings of JSON text.  A string is either kept, its escapes resolved and
surrogates paired (`readText`), or only skipped, where any four hexadecimal digits make an escape
(`skipText`).

Main statements: each reader leaves less text than it was given (`readWord_length_le`,
`readText_length_lt`, `skipText_length_lt`).
-/

namespace Prototypal.Json

def isSpace (c : Char) : Bool := c == ' ' || c == '\n' || c == '\t' || c == '\r'

/-- The text from the first character on that is no space. -/
def skipSpace (s : List Char) : List Char := s.dropWhile isSpace

theorem skipSpace_length_le (s : List Char) : (skipSpace s).length ≤ s.length :=
  (List.dropWhile_sublist _).length_le

theorem length_lt_of_skipSpace {s r : List Char} {c : Char} (h : skipSpace s = c :: r) :
    r.length < s.length := by
  have := skipSpace_length_le s
  rw [h, List.length_cons] at this
  exact this

/-- The text after a given word. -/
def readWord : List Char → List Char → Except Fault (List Char)
  | [], s => .ok s
  | _ :: _, [] => .error .ended
  | c :: cs, d :: s => if c = d then readWord cs s else .error (.malformed s)

theorem readWord_length_le {w s r : List Char} (h : readWord w s = .ok r) :
    r.length ≤ s.length := by
  fun_induction readWord w s with
  | case1 s => simp_all
  | case2 => cases h
  | case3 c cs s ih => exact Nat.le_succ_of_le (ih h)
  | case4 => cases h

/-! ### Escapes -/

def hexDigit? (c : Char) : Option Nat :=
  if '0' ≤ c ∧ c ≤ '9' then some (c.toNat - '0'.toNat)
  else if 'a' ≤ c ∧ c ≤ 'f' then some (c.toNat - 'a'.toNat + 10)
  else if 'A' ≤ c ∧ c ≤ 'F' then some (c.toNat - 'A'.toNat + 10)
  else none

/-- The text without the characters that begin in its first `n` bytes. -/
def dropBytes : Nat → List Char → List Char
  | 0, s => s
  | _ + 1, [] => []
  | n + 1, c :: s => dropBytes (n + 1 - c.utf8Size) s

/-- The fault of an escape that is not four hexadecimal digits: it is read as four bytes. -/
def badUnit (s : List Char) : Fault :=
  if (String.ofList (s.take 4)).utf8ByteSize < 4 then .ended else .malformed (dropBytes 4 s)

/-- The code unit of four hexadecimal digits. -/
def readUnit : List Char → Reading Nat
  | a :: b :: c :: d :: s =>
    match hexDigit? a, hexDigit? b, hexDigit? c, hexDigit? d with
    | some a, some b, some c, some d => .ok (((a * 16 + b) * 16 + c) * 16 + d, s)
    | _, _, _, _ => .error (badUnit (a :: b :: c :: d :: s))
  | s => .error (badUnit s)

theorem readUnit_length_lt {s r : List Char} {n : Nat} (h : readUnit s = .ok (n, r)) :
    r.length < s.length := by
  unfold readUnit at h
  split at h
  · split at h
    · cases h
      simp only [List.length_cons]
      omega
    · cases h
  · cases h

def isLeadingSurrogate (n : Nat) : Bool := 0xD800 ≤ n && n ≤ 0xDBFF

def isTrailingSurrogate (n : Nat) : Bool := 0xDC00 ≤ n && n ≤ 0xDFFF

/-- The character of a pair of surrogates. -/
def pairedSurrogates (leading trailing : Nat) : Char :=
  Char.ofNat (0x10000 + (leading - 0xD800) * 0x400 + (trailing - 0xDC00))

/-- The trailing surrogate that has to follow a leading one. -/
def readTrailing : List Char → Reading Nat
  | '\\' :: 'u' :: s =>
    match readUnit s with
    | .ok (n, s) => if isTrailingSurrogate n then .ok (n, s) else .error (.malformed s)
    | .error f => .error f
  | '\\' :: s => .error (.unexpected s)
  | s => .error (.unexpected s)

theorem readTrailing_length_lt {s r : List Char} {n : Nat} (h : readTrailing s = .ok (n, r)) :
    r.length < s.length := by
  unfold readTrailing at h
  split at h
  · split at h
    · next hu =>
      split at h
      · cases h
        have := readUnit_length_lt hu
        simp only [List.length_cons]
        omega
      · cases h
    · cases h
  · cases h
  · cases h

/-- The character that a letter after a backslash stands for. -/
def shortEscape? : Char → Option Char
  | '"' => some '"'
  | '\\' => some '\\'
  | '/' => some '/'
  | 'b' => some '\x08'
  | 'f' => some '\x0c'
  | 'n' => some '\n'
  | 'r' => some '\r'
  | 't' => some '\t'
  | _ => none

/-- The character of an escape, from what follows the backslash. -/
def readEscape : List Char → Reading Char
  | [] => .error .ended
  | 'u' :: s =>
    match readUnit s with
    | .error f => .error f
    | .ok (n, s) =>
      if isTrailingSurrogate n then .error (.malformed s)
      else if isLeadingSurrogate n then
        match readTrailing s with
        | .ok (m, s) => .ok (pairedSurrogates n m, s)
        | .error f => .error f
      else .ok (Char.ofNat n, s)
  | c :: s =>
    match shortEscape? c with
    | some d => .ok (d, s)
    | none => .error (.malformed s)

theorem readEscape_length_lt {s r : List Char} {c : Char} (h : readEscape s = .ok (c, r)) :
    r.length < s.length := by
  unfold readEscape at h
  split at h
  · cases h
  · split at h
    · cases h
    · next hu =>
      have hu := readUnit_length_lt hu
      split at h
      · cases h
      · split at h
        · split at h
          · next ht =>
            have ht := readTrailing_length_lt ht
            obtain ⟨-, rfl⟩ := Prod.mk.inj (Except.ok.inj h)
            simp only [List.length_cons]
            omega
          · cases h
        · cases h
          simp only [List.length_cons]
          omega
  · split at h
    · cases h
      simp
    · cases h

/-- The text after an escape of a skipped string, from what follows the backslash. -/
def skipEscape : List Char → Except Fault (List Char)
  | [] => .error .ended
  | 'u' :: s => restOf (readUnit s)
  | c :: s => if (shortEscape? c).isSome then .ok s else .error (.malformed s)

theorem skipEscape_length_lt {s r : List Char} (h : skipEscape s = .ok r) :
    r.length < s.length := by
  unfold skipEscape at h
  split at h
  · cases h
  · obtain ⟨n, hn⟩ := restOf_eq_ok.1 h
    exact Nat.lt_succ_of_lt (readUnit_length_lt hn)
  · split at h
    · cases h
      simp
    · cases h

/-! ### Strings -/

/-- The characters of a kept string from behind its opening quote, after those in `seen`, latest
first. -/
def readText (seen : List Char) : List Char → Reading String
  | [] => .error .ended
  | '"' :: s => .ok (String.ofList seen.reverse, s)
  | '\\' :: s =>
    match _h : readEscape s with
    | .ok (c, r) => readText (c :: seen) r
    | .error f => .error f
  | c :: s => if c.toNat < 0x20 then .error (.malformed s) else readText (c :: seen) s
termination_by s => s.length
decreasing_by
  · have := readEscape_length_lt _h
    simp only [List.length_cons]
    omega
  · simp

theorem readText_length_lt {seen s r : List Char} {t : String} (h : readText seen s = .ok (t, r)) :
    r.length < s.length := by
  fun_induction readText seen s with
  | case1 => cases h
  | case2 seen s =>
    cases h
    simp
  | case3 seen s c r' he ih =>
    have := readEscape_length_lt he
    have := ih h
    simp only [List.length_cons]
    omega
  | case4 => cases h
  | case5 => cases h
  | case6 seen c s _ _ _ ih =>
    have := ih h
    simp only [List.length_cons]
    omega

/-- The text after a skipped string, from behind its opening quote. -/
def skipText : List Char → Except Fault (List Char)
  | [] => .error .ended
  | '"' :: s => .ok s
  | '\\' :: s =>
    match _h : skipEscape s with
    | .ok r => skipText r
    | .error f => .error f
  | c :: s => if c.toNat < 0x20 then .error (.malformed (c :: s)) else skipText s
termination_by s => s.length
decreasing_by
  · have := skipEscape_length_lt _h
    simp only [List.length_cons]
    omega
  · simp

theorem skipText_length_lt {s r : List Char} (h : skipText s = .ok r) : r.length < s.length := by
  fun_induction skipText s with
  | case1 => cases h
  | case2 s =>
    cases h
    simp
  | case3 s r' he ih =>
    have := skipEscape_length_lt he
    have := ih h
    simp only [List.length_cons]
    omega
  | case4 => cases h
  | case5 => cases h
  | case6 c s _ _ _ ih =>
    have := ih h
    simp only [List.length_cons]
    omega

end Prototypal.Json
