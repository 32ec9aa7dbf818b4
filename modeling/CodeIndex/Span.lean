/-! # Line spans

Lines are numbered from one and both ends of a span belong to it. Bounds are 32-bit words, as
in the records that carry them.
-/

namespace CodeIndex

/-- The lines from `start` to `stop`, both included. -/
structure Span where
  start : UInt32
  stop : UInt32
deriving DecidableEq, Repr

namespace Span

def line (n : UInt32) : Span := ⟨n, n⟩

def containsLine (s : Span) (n : UInt32) : Bool :=
  s.start ≤ n && n ≤ s.stop

/-- Whether both bounds of `t` lie within `s`; nothing is asked of the order of `t`'s bounds. -/
def contains (s t : Span) : Bool :=
  s.start ≤ t.start && t.stop ≤ s.stop

/-- The number of lines as a 32-bit word, zero when the bounds are out of order. The span of all
words wraps around to zero. -/
def lineCount (s : Span) : UInt32 :=
  if s.start ≤ s.stop then s.stop - s.start + 1 else 0

end Span

end CodeIndex
