import Prototypal.Source.Span

/-!
# Prototypal — Proofs — Packing

Spans against their packed words.  A word is read in two halves, and every word has both: the upper
one is any start, the lower one any length (`toNat_word`).  A span that is not inverted is its start
and its length, so packing it loses nothing and keeps the order.  The other way a word may say too
much: a length that leads past the largest offset.  Unpacking cuts such a length off, and what it
gives is packed into the word with the length that is left.

* `packing_exact`: what packing and unpacking do to every span and to every word.
-/

namespace Prototypal

/-! ### Halves of a word -/

namespace PackedSpan

theorem toNat_word_ofParts (start length : UInt32) :
    (ofParts start length).word.toNat = start.toNat * UInt32.size + length.toNat := by
  have hstart : start.toNat < UInt32.size := start.toNat_lt
  have hlength : length.toNat < UInt32.size := length.toNat_lt
  refine UInt64.toNat_ofNat_of_lt' ?_
  simp only [UInt32.size, UInt64.size] at *
  omega

theorem toNat_start (p : PackedSpan) : p.start.toNat = p.word.toNat / UInt32.size := by
  have hword : p.word.toNat < UInt64.size := p.word.toNat_lt
  refine UInt32.toNat_ofNat_of_lt' ?_
  simp only [UInt32.size, UInt64.size] at *
  omega

theorem toNat_length (p : PackedSpan) : p.length.toNat = p.word.toNat % UInt32.size :=
  UInt32.toNat_ofNat_of_lt' (Nat.mod_lt _ (by decide))

theorem toNat_word (p : PackedSpan) :
    p.word.toNat = p.start.toNat * UInt32.size + p.length.toNat := by
  rw [toNat_start, toNat_length, Nat.mul_comm, Nat.div_add_mod]

@[simp] theorem start_ofParts (start length : UInt32) : (ofParts start length).start = start := by
  have hlength : length.toNat < UInt32.size := length.toNat_lt
  rw [← UInt32.toNat_inj, toNat_start, toNat_word_ofParts, Nat.mul_comm,
    Nat.mul_add_div (by decide), Nat.div_eq_of_lt hlength, Nat.add_zero]

@[simp] theorem length_ofParts (start length : UInt32) :
    (ofParts start length).length = length := by
  have hlength : length.toNat < UInt32.size := length.toNat_lt
  rw [← UInt32.toNat_inj, toNat_length, toNat_word_ofParts, Nat.mul_comm, Nat.mul_add_mod,
    Nat.mod_eq_of_lt hlength]

theorem eq_iff_parts {p q : PackedSpan} : p = q ↔ p.start = q.start ∧ p.length = q.length := by
  refine ⟨fun h => h ▸ ⟨rfl, rfl⟩, fun ⟨hstart, hlength⟩ => ?_⟩
  have hword : p.word.toNat = q.word.toNat := by
    rw [toNat_word, toNat_word, hstart, hlength]
  cases p
  cases q
  exact congrArg mk (UInt64.toNat_inj.mp hword)

/-- A word in bits: its upper half is the start, its lower half the length. -/
theorem word_eq_or (p : PackedSpan) :
    p.word = p.start.toUInt64 <<< 32 ||| p.length.toUInt64 := by
  have hstart : p.start.toNat < UInt32.size := p.start.toNat_lt
  have hlength : p.length.toNat < UInt32.size := p.length.toNat_lt
  have hshift : (p.start.toUInt64 <<< 32).toNat = p.start.toNat <<< 32 := by
    rw [UInt64.toNat_shiftLeft, UInt32.toNat_toUInt64]
    refine Nat.mod_eq_of_lt ?_
    rw [Nat.shiftLeft_eq]
    simp only [UInt32.size] at hstart
    show _ * 2 ^ 32 < _
    omega
  rw [← UInt64.toNat_inj, UInt64.toNat_or, hshift, UInt32.toNat_toUInt64,
    ← Nat.shiftLeft_add_eq_or_of_lt hlength, Nat.shiftLeft_eq, toNat_word]

end PackedSpan

/-! ### Bounds of a span -/

namespace Span

variable {s t : Span}

theorem toNat_length (s : Span) : s.length.toNat = s.stop.toNat - s.start.toNat :=
  UInt32.toNat_ofNat_of_lt' (Nat.lt_of_le_of_lt (Nat.sub_le _ _) s.stop.toNat_lt)

theorem toNat_stop_ofLength (start length : UInt32) :
    (ofLength start length).stop.toNat = min (start.toNat + length.toNat) (UInt32.size - 1) :=
  UInt32.toNat_ofNat_of_lt' (Nat.lt_of_le_of_lt (Nat.min_le_right _ _) (by decide))

@[simp] theorem start_pack (s : Span) : s.pack.start = s.start := PackedSpan.start_ofParts _ _

@[simp] theorem length_pack (s : Span) : s.pack.length = s.length := PackedSpan.length_ofParts _ _

@[simp] theorem start_unpack (p : PackedSpan) : p.unpack.start = p.start := rfl

theorem toNat_stop_unpack (p : PackedSpan) :
    p.unpack.stop.toNat = min (p.start.toNat + p.length.toNat) (UInt32.size - 1) :=
  toNat_stop_ofLength _ _

theorem eq_iff_bounds {s t : Span} :
    s = t ↔ s.start.toNat = t.start.toNat ∧ s.stop.toNat = t.stop.toNat := by
  rw [UInt32.toNat_inj, UInt32.toNat_inj]
  cases s
  cases t
  exact Iff.of_eq (mk.injEq ..)

theorem ofBounds_of_le (h : s.start ≤ s.stop) : ofBounds s.start s.stop = s :=
  congrArg (mk s.start) (if_pos h)

theorem ofBounds_of_lt (h : s.stop < s.start) :
    ofBounds s.start s.stop = ⟨s.start, s.start⟩ :=
  congrArg (mk s.start) (if_neg (UInt32.not_le.mpr h))

/-- Packing and unpacking a span mends its bounds if they are inverted, and nothing else. -/
theorem unpack_pack (s : Span) : s.pack.unpack = ofBounds s.start s.stop := by
  have hstart : s.start.toNat < UInt32.size := s.start.toNat_lt
  have hstop : s.stop.toNat < UInt32.size := s.stop.toNat_lt
  have hsum : s.pack.unpack.stop.toNat =
      min (s.start.toNat + (s.stop.toNat - s.start.toNat)) (UInt32.size - 1) := by
    rw [toNat_stop_unpack, start_pack, length_pack, toNat_length]
  rw [eq_iff_bounds, start_unpack, start_pack, hsum]
  refine ⟨rfl, ?_⟩
  by_cases h : s.start ≤ s.stop
  · rw [ofBounds_of_le h]
    rw [UInt32.le_iff_toNat_le] at h
    omega
  · rw [ofBounds_of_lt (UInt32.not_le.mp h)]
    rw [UInt32.le_iff_toNat_le] at h
    show min _ _ = s.start.toNat
    omega

theorem unpack_pack_of_le (h : s.start ≤ s.stop) : s.pack.unpack = s := by
  rw [unpack_pack, ofBounds_of_le h]

/-! ### Order -/

/-- Words of spans that are not inverted are ordered as the spans are: of equal starts, the longer
one ends later. -/
theorem word_pack_lt_iff (hs : s.start ≤ s.stop) (ht : t.start ≤ t.stop) :
    s.pack.word < t.pack.word ↔ s.start < t.start ∨ s.start = t.start ∧ s.stop < t.stop := by
  rw [UInt32.le_iff_toNat_le] at hs ht
  have hsstop : s.stop.toNat < UInt32.size := s.stop.toNat_lt
  have htstop : t.stop.toNat < UInt32.size := t.stop.toNat_lt
  rw [UInt64.lt_iff_toNat_lt, PackedSpan.toNat_word, PackedSpan.toNat_word, start_pack, start_pack,
    length_pack, length_pack, toNat_length, toNat_length, UInt32.lt_iff_toNat_lt,
    UInt32.lt_iff_toNat_lt, ← UInt32.toNat_inj]
  simp only [UInt32.size] at *
  omega

theorem pack_inj (hs : s.start ≤ s.stop) (ht : t.start ≤ t.stop) (h : s.pack = t.pack) : s = t := by
  rw [← unpack_pack_of_le hs, h, unpack_pack_of_le ht]

theorem compare_eq_lt : s.compare t = .lt ↔
    s.start < t.start ∨ s.start = t.start ∧ s.stop < t.stop := by
  rw [compare, Ordering.then_eq_lt, Std.compare_eq_lt, Std.compare_eq_lt, Std.compare_eq_iff_eq]

theorem compare_eq_eq : s.compare t = .eq ↔ s = t := by
  rw [compare, Ordering.then_eq_eq, Std.compare_eq_iff_eq, Std.compare_eq_iff_eq, eq_iff_bounds,
    UInt32.toNat_inj, UInt32.toNat_inj]

/-- Comparing the words of spans that are not inverted compares the spans. -/
theorem compare_pack (hs : s.start ≤ s.stop) (ht : t.start ≤ t.stop) :
    s.pack.compare t.pack = s.compare t := by
  have hlt : s.pack.compare t.pack = .lt ↔ s.compare t = .lt :=
    (Std.compare_eq_lt.trans (word_pack_lt_iff hs ht)).trans compare_eq_lt.symm
  have heq : s.pack.compare t.pack = .eq ↔ s.compare t = .eq := by
    rw [compare_eq_eq, PackedSpan.compare, Std.compare_eq_iff_eq]
    exact ⟨fun h => pack_inj hs ht (congrArg PackedSpan.mk h), fun h => h ▸ rfl⟩
  cases h : s.compare t with
  | lt => exact hlt.mpr h
  | eq => exact heq.mpr h
  | gt =>
    rw [h] at hlt heq
    cases hp : s.pack.compare t.pack with
    | lt => exact absurd (hlt.mp hp) (by decide)
    | eq => exact absurd (heq.mp hp) (by decide)
    | gt => rfl

end Span

/-! ### Words that say too much -/

namespace PackedSpan

theorem unpack_start_le_stop (p : PackedSpan) : p.unpack.start ≤ p.unpack.stop := by
  have hstart : p.start.toNat < UInt32.size := p.start.toNat_lt
  rw [UInt32.le_iff_toNat_le, Span.toNat_stop_unpack, Span.start_unpack]
  omega

/-- What is left of a length once it is cut off at the largest offset. -/
theorem toNat_length_unpack (p : PackedSpan) :
    p.unpack.length.toNat = min p.length.toNat (UInt32.size - 1 - p.start.toNat) := by
  have hstart : p.start.toNat < UInt32.size := p.start.toNat_lt
  rw [Span.toNat_length, Span.toNat_stop_unpack, Span.start_unpack]
  omega

theorem pack_unpack_eq_iff (p : PackedSpan) :
    p.unpack.pack = p ↔ p.start.toNat + p.length.toNat < UInt32.size := by
  have hstart : p.start.toNat < UInt32.size := p.start.toNat_lt
  rw [eq_iff_parts, Span.start_pack, Span.length_pack, ← UInt32.toNat_inj (a := p.unpack.length),
    toNat_length_unpack]
  simp only [Span.start_unpack, true_and, UInt32.size] at *
  omega

theorem pack_unpack_of_le {p : PackedSpan} (h : UInt32.size ≤ p.start.toNat + p.length.toNat) :
    p.unpack.pack = ofParts p.start (0xFFFFFFFF - p.start) := by
  have hstart : p.start.toNat < UInt32.size := p.start.toNat_lt
  have hleft : (0xFFFFFFFF - p.start).toNat = UInt32.size - 1 - p.start.toNat :=
    UInt32.toNat_sub_of_le _ _ (UInt32.le_iff_toNat_le.mpr (Nat.le_sub_one_of_lt hstart))
  rw [eq_iff_parts, Span.start_pack, Span.length_pack, start_ofParts, length_ofParts,
    ← UInt32.toNat_inj (a := p.unpack.length), toNat_length_unpack, hleft]
  refine ⟨rfl, ?_⟩
  simp only [UInt32.size] at *
  omega

end PackedSpan

/-- **Packing is exact.**  A span that is not inverted comes back from its word, and its word stands
where the span does, by start and then by end.  An inverted span comes back empty at its start.  A
word comes back from its span just when start and length together are an offset, and otherwise with
its length cut off at the largest one.  Spans from words are never inverted, so unpacking and
packing again changes nothing more. -/
theorem packing_exact :
    (∀ s : Span, s.start ≤ s.stop → s.pack.unpack = s) ∧
    (∀ s t : Span, s.start ≤ s.stop → t.start ≤ t.stop →
      s.pack.compare t.pack = s.compare t ∧
      (s.pack.word < t.pack.word ↔ s.start < t.start ∨ s.start = t.start ∧ s.stop < t.stop) ∧
      (s.pack = t.pack → s = t)) ∧
    (∀ s : Span, s.stop < s.start → s.pack.unpack = ⟨s.start, s.start⟩) ∧
    (∀ p : PackedSpan,
      p.word = p.start.toUInt64 <<< 32 ||| p.length.toUInt64 ∧
      (p.unpack.pack = p ↔ p.start.toNat + p.length.toNat < UInt32.size) ∧
      (UInt32.size ≤ p.start.toNat + p.length.toNat →
        p.unpack.pack = .ofParts p.start (0xFFFFFFFF - p.start)) ∧
      p.unpack.start ≤ p.unpack.stop ∧
      p.unpack.pack.unpack.pack = p.unpack.pack) := by
  refine ⟨fun s => Span.unpack_pack_of_le, fun s t hs ht => ?_, fun s hs => ?_, fun p => ?_⟩
  · exact ⟨Span.compare_pack hs ht, Span.word_pack_lt_iff hs ht, Span.pack_inj hs ht⟩
  · rw [Span.unpack_pack, Span.ofBounds_of_lt hs]
  · refine ⟨p.word_eq_or, p.pack_unpack_eq_iff, PackedSpan.pack_unpack_of_le,
      p.unpack_start_le_stop, ?_⟩
    rw [Span.unpack_pack_of_le p.unpack_start_le_stop]

/-- A word whose length leads past the largest offset. -/
def overlong : PackedSpan := .ofParts 0xFFFFFFFE 10

theorem packing_exact_overlong :
    (⟨3, 8⟩ : Span).pack.unpack = ⟨3, 8⟩ ∧
    (⟨3, 8⟩ : Span).pack.compare (⟨3, 9⟩ : Span).pack = .lt ∧
    (⟨10, 4⟩ : Span).pack.unpack = ⟨10, 10⟩ ∧
    overlong.unpack.pack ≠ overlong ∧ overlong.unpack.pack = .ofParts 0xFFFFFFFE 1 := by
  obtain ⟨hspan, hpair, hinverted, hword⟩ := packing_exact
  obtain ⟨-, hiff, hover, -⟩ := hword overlong
  exact ⟨hspan _ (by decide), (hpair _ _ (by decide) (by decide)).1.trans (by decide),
    hinverted _ (by decide), fun h => absurd (hiff.mp h) (by decide), hover (by decide)⟩

end Prototypal
