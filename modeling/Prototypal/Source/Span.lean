/-!
# Prototypal — Source — Span

Half-open ranges of source offsets (`Span`), and their form as one word (`PackedSpan`): the start in
the upper 32 bits, the length in the lower 32.  Comparing packed spans as words compares the starts
first.  Unpacking never gives an end before the start: an end that does not fit stops at the largest
offset.
-/

namespace Prototypal

/-- A range of source offsets, from `start` up to and without `stop`. -/
structure Span where
  start : UInt32 := 0
  stop : UInt32 := 0
deriving DecidableEq, Repr, Inhabited

namespace Span

/-- The span between two offsets, empty at `start` if `stop` comes before it. -/
def ofBounds (start stop : UInt32) : Span := ⟨start, max start stop⟩

/-- The span of `length` offsets from `start`, cut off at the largest offset. -/
def ofLength (start length : UInt32) : Span :=
  ⟨start, UInt32.ofNat (min (start.toNat + length.toNat) (UInt32.size - 1))⟩

/-- The number of offsets in the span, none if its bounds are inverted. -/
def length (s : Span) : UInt32 := UInt32.ofNat (s.stop.toNat - s.start.toNat)

def isEmpty (s : Span) : Bool := s.length == 0

def contains (s : Span) (offset : UInt32) : Bool := s.start ≤ offset && offset < s.stop

/-- Spans are ordered by their starts, then by their ends. -/
def compare (s t : Span) : Ordering :=
  (Ord.compare s.start t.start).then (Ord.compare s.stop t.stop)

end Span

/-- A span as one word: `start · 2^32 + length`. -/
structure PackedSpan where
  word : UInt64
deriving DecidableEq, Repr, Inhabited

namespace PackedSpan

def ofParts (start length : UInt32) : PackedSpan :=
  ⟨UInt64.ofNat (start.toNat * UInt32.size + length.toNat)⟩

def start (p : PackedSpan) : UInt32 := UInt32.ofNat (p.word.toNat / UInt32.size)

def length (p : PackedSpan) : UInt32 := UInt32.ofNat (p.word.toNat % UInt32.size)

def isEmpty (p : PackedSpan) : Bool := p.length == 0

/-- The span that a word stands for. -/
def unpack (p : PackedSpan) : Span := Span.ofLength p.start p.length

/-- Packed spans are ordered as words. -/
def compare (p q : PackedSpan) : Ordering := Ord.compare p.word q.word

end PackedSpan

/-- The word of a span; the bounds of an inverted span leave only its start. -/
def Span.pack (s : Span) : PackedSpan := PackedSpan.ofParts s.start s.length

end Prototypal
