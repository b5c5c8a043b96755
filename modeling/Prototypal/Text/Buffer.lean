/-!
# Prototypal — Text — Buffer

Text in the making (`Text.Buffer`).  It is kept in UTF-8, where a character takes one to four bytes,
so its size and the offsets into it count bytes.  Characters are added at the end, and one byte is
replaced by another character if that byte is a whole character; elsewhere a replacement fails
(`Buffer.replaceByte?`).  Its place is looked for from the end.
-/

namespace Prototypal.Text

/-- How many bytes a text takes. -/
def byteSize : List Char → Nat
  | [] => 0
  | c :: s => c.utf8Size + byteSize s

@[simp] theorem byteSize_append (s t : List Char) :
    byteSize (s ++ t) = byteSize s + byteSize t := by
  induction s with
  | nil => simp [byteSize]
  | cons c s ih => simp [byteSize, ih, Nat.add_assoc]

/-- A later place of a text has a greater offset. -/
theorem byteSize_take_lt {s : List Char} {j k : Nat} (hj : j < k) (hk : k ≤ s.length) :
    byteSize (s.take j) < byteSize (s.take k) := by
  induction s generalizing j k with
  | nil =>
    rw [List.length_nil] at hk
    omega
  | cons c s ih =>
    obtain ⟨k, rfl⟩ : ∃ l, k = l + 1 := ⟨k - 1, by omega⟩
    cases j with
    | zero =>
      have := c.utf8Size_pos
      simp only [List.take_zero, List.take_succ_cons, byteSize]
      omega
    | succ j =>
      simp only [List.take_succ_cons, byteSize]
      exact Nat.add_lt_add_left (ih (Nat.lt_of_succ_lt_succ hj) (Nat.le_of_succ_le_succ hk)) _

theorem byteSize_set {s : List Char} {k : Nat} (hk : k < s.length) (c : Char) :
    byteSize (s.set k c) + s[k].utf8Size = byteSize s + c.utf8Size := by
  induction s generalizing k with
  | nil => cases hk
  | cons d s ih =>
    cases k with
    | zero =>
      simp only [List.set_cons_zero, List.getElem_cons_zero, byteSize]
      omega
    | succ k =>
      have := ih (Nat.lt_of_succ_lt_succ hk)
      simp only [List.set_cons_succ, List.getElem_cons_succ, byteSize]
      omega

theorem byteSize_pos {s : List Char} {k : Nat} (hk : k < s.length) : 0 < byteSize s := by
  cases s with
  | nil => cases hk
  | cons c s => exact Nat.add_pos_left c.utf8Size_pos _

/-! ### Places -/

/-- The place of the character at byte offset `i` among the first `k`, which end at offset
`stop`. -/
def placeOf? (chars : Array Char) (i : Nat) :
    (k : Nat) → k ≤ chars.size → Nat → Option (Fin chars.size)
  | 0, _, _ => none
  | k + 1, h, stop =>
    let start := stop - chars[k].utf8Size
    if start = i then some ⟨k, h⟩
    else if i < start then placeOf? chars i k (Nat.le_of_succ_le h) start
    else none

/-- A place is found just when as many bytes stand before it as the offset tells. -/
theorem placeOf?_eq_some_iff {chars : Array Char} {i k : Nat} {h : k ≤ chars.size}
    {p : Fin chars.size} :
    placeOf? chars i k h (byteSize (chars.toList.take k)) = some p ↔
      p < k ∧ byteSize (chars.toList.take p) = i := by
  induction k with
  | zero => simp [placeOf?]
  | succ k ih =>
    have hk : k < chars.toList.length := h
    have hstart : byteSize (chars.toList.take (k + 1)) - chars[k].utf8Size =
        byteSize (chars.toList.take k) := by
      rw [List.take_succ_eq_append_getElem hk]
      simp [byteSize]
    have hbefore : ∀ {j}, j < k → byteSize (chars.toList.take j) < byteSize (chars.toList.take k) :=
      fun hj => byteSize_take_lt hj (Nat.le_of_lt hk)
    have hlast : (p : Nat) < k + 1 ↔ (p : Nat) < k ∨ p = ⟨k, h⟩ := by
      rw [Nat.lt_succ_iff_lt_or_eq, Fin.ext_iff]
    simp only [placeOf?, hstart, hlast, or_and_right]
    split
    · next hi =>
      subst hi
      refine ⟨fun hp => .inr ?_, ?_⟩
      · cases hp
        exact ⟨rfl, rfl⟩
      · rintro (⟨hp, he⟩ | ⟨rfl, -⟩)
        · exact absurd he (Nat.ne_of_lt (hbefore hp))
        · rfl
    split
    · next hne _ =>
      rw [ih]
      refine ⟨.inl, ?_⟩
      rintro (hp | ⟨rfl, hp⟩)
      · exact hp
      · exact absurd hp hne
    · next hne hnot =>
      refine iff_of_false nofun ?_
      rintro (⟨hp, rfl⟩ | ⟨rfl, hp⟩)
      · exact hnot (hbefore hp)
      · exact hne hp

/-! ### Buffers -/

/-- Text in the making, with its size in bytes. -/
structure Buffer where
  chars : Array Char := #[]
  size : Nat := 0
  size_eq : size = byteSize chars.toList := by rfl
deriving DecidableEq, Repr

namespace Buffer

def toList (b : Buffer) : List Char := b.chars.toList

def ofList (s : List Char) : Buffer := { chars := s.toArray, size := byteSize s }

@[simp] theorem toList_ofList (s : List Char) : (ofList s).toList = s := rfl

@[simp] theorem size_ofList (s : List Char) : (ofList s).size = byteSize s := rfl

theorem ext_toList {b b' : Buffer} (h : b.toList = b'.toList) : b = b' := by
  obtain ⟨⟨s⟩, size, rfl⟩ := b
  obtain ⟨⟨s'⟩, size', rfl⟩ := b'
  cases h
  rfl

def push (b : Buffer) (c : Char) : Buffer where
  chars := b.chars.push c
  size := b.size + c.utf8Size
  size_eq := by simp [b.size_eq, byteSize]

@[simp] theorem toList_push (b : Buffer) (c : Char) : (b.push c).toList = b.toList ++ [c] :=
  Array.toList_push

@[simp] theorem push_ofList (s : List Char) (c : Char) : (ofList s).push c = ofList (s ++ [c]) :=
  ext_toList (toList_push (ofList s) c)

theorem size_eq_byteSize_set {chars : Array Char} {size : Nat}
    (hsize : size = byteSize chars.toList) {p : Fin chars.size}
    (hp : chars[p.val].utf8Size = 1) (c : Char) :
    size - 1 + c.utf8Size = byteSize (chars.set p.val c).toList := by
  have hset := byteSize_set (s := chars.toList) p.isLt c
  have hpos := byteSize_pos (s := chars.toList) p.isLt
  rw [Array.getElem_toList, hp] at hset
  rw [hsize, Array.toList_set]
  omega

/-- Replaces the character of one byte at offset `i`, if there is one, by `c`. -/
def replaceByte? : Buffer → Nat → Char → Option Buffer
  | ⟨chars, size, hsize⟩, i, c =>
    match placeOf? chars i chars.size (Nat.le_refl _) size with
    | none => none
    | some p =>
      if h : chars[p.val].utf8Size = 1 then
        some ⟨chars.set p.val c, size - 1 + c.utf8Size, size_eq_byteSize_set hsize h c⟩
      else none

/-- A byte is replaced just where a character of one byte stands behind as many bytes as the offset
tells. -/
theorem replaceByte?_eq_some_iff {b b' : Buffer} {i : Nat} {c : Char} :
    b.replaceByte? i c = some b' ↔ ∃ before d behind, b.toList = before ++ d :: behind ∧
      byteSize before = i ∧ d.utf8Size = 1 ∧ b'.toList = before ++ c :: behind := by
  obtain ⟨chars, size, hsize⟩ := b
  have hplace : ∀ p : Fin chars.size,
      placeOf? chars i chars.size (Nat.le_refl _) size = some p ↔
        byteSize (chars.toList.take p) = i := by
    intro p
    have hall : size = byteSize (chars.toList.take chars.size) := by
      rw [hsize, ← Array.length_toList, List.take_length]
    rw [hall]
    exact placeOf?_eq_some_iff.trans (and_iff_right p.isLt)
  show replaceByte? ⟨chars, size, hsize⟩ i c = some b' ↔ ∃ before d behind,
    chars.toList = before ++ d :: behind ∧ _
  constructor
  · intro h
    rw [replaceByte?] at h
    split at h
    · cases h
    · next p hp =>
      split at h
      · next hd =>
        cases h
        have hlt : p.val < chars.toList.length := p.isLt
        refine ⟨chars.toList.take p, chars.toList[p.val], chars.toList.drop (p + 1), ?_,
          (hplace p).mp hp, hd, ?_⟩
        · rw [← List.drop_eq_getElem_cons hlt, List.take_append_drop]
        · exact (List.set_eq_take_append_cons_drop ..).trans (if_pos hlt)
      · cases h
  · rintro ⟨before, d, behind, hb, rfl, hd, hb'⟩
    have hget : chars[before.length]? = some d := by
      rw [← Array.getElem?_toList, hb]
      simp
    obtain ⟨hlt, hget⟩ := Array.getElem?_eq_some_iff.mp hget
    have hp : placeOf? chars (byteSize before) chars.size (Nat.le_refl _) size =
        some ⟨before.length, hlt⟩ := by
      rw [hplace, hb, List.take_left]
    rw [replaceByte?, hp]
    simp only [hget, hd, dif_pos]
    refine congrArg some (ext_toList ?_)
    rw [hb', toList, Array.toList_set, hb]
    simp

end Buffer

end Prototypal.Text
