/-!
# Source spans

A span is the stretch of source text a node was read from. Positions are 64-bit
words, so a line number can be larger than a signed word of the code stream can
say; what happens then is the business of `Strand.Stream`.
-/

namespace Strand

/-- A region of source text: two offsets, and the line and column it starts at. -/
structure Span where
  start : UInt64
  stop : UInt64
  line : UInt64
  column : UInt64
deriving DecidableEq, Inhabited

namespace Span

/-- The span of a node that was not given one. -/
def zero : Span := ⟨0, 0, 0, 0⟩

/-- The span that covers both. Line and column come from the one that starts first,
and from the left one when both start together. -/
def merge (a b : Span) : Span :=
  let first := if a.start ≤ b.start then a else b
  { start := min a.start b.start
    stop := max a.stop b.stop
    line := first.line
    column := first.column }

/-- How a diagnostic names the place. -/
def text (s : Span) : String :=
  "line " ++ toString s.line.toNat ++ ", column " ++ toString s.column.toNat

end Span

end Strand
