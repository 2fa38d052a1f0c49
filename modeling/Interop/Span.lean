/-!
# Spans

A span is a half-open range of byte offsets of a source text.  Every tree node and every
annotation carries one, and a report points at it.
-/

namespace Interop

/-- Byte offsets from `start` up to, not including, `stop`. -/
structure Span where
  start : Nat := 0
  stop : Nat := 0
deriving DecidableEq, Inhabited

namespace Span

/-- Number of bytes covered; none if the ends are out of order. -/
def length (s : Span) : Nat := s.stop - s.start

/-- Both ends coincide.  A span with its ends out of order is not empty, but has length zero. -/
def isEmpty (s : Span) : Bool := s.start == s.stop

/-- `t` lies within `s`. -/
def contains (s t : Span) : Bool := s.start ≤ t.start && t.stop ≤ s.stop

/-- The smallest span that covers both. -/
def merge (s t : Span) : Span := ⟨min s.start t.start, max s.stop t.stop⟩

/-- The two offsets, as reports write them. -/
def text (s : Span) : String := s!"{s.start}..{s.stop}"

theorem contains_iff {s t : Span} : s.contains t ↔ s.start ≤ t.start ∧ t.stop ≤ s.stop := by
  simp [contains]

theorem contains_merge_left (s t : Span) : (s.merge t).contains s := by
  simp only [contains_iff, merge]; omega

theorem contains_merge_right (s t : Span) : (s.merge t).contains t := by
  simp only [contains_iff, merge]; omega

end Span

end Interop
