/-!
# Spans

A stretch of a source text, in bytes of its UTF-8 form. Spans are what
tokens, syntax trees and diagnostics use to say where something stands.
-/

namespace Exemplar

/-- The bytes from `start` up to, but not including, `stop`. A span with
`stop ≤ start` is empty. -/
structure Span where
  start : Nat
  stop : Nat
deriving Repr, DecidableEq, Inhabited

namespace Span

/-- The span of a node that was made rather than read. -/
def nowhere : Span := ⟨0, 0⟩

/-- The smallest span that covers both. -/
def union (a b : Span) : Span :=
  ⟨min a.start b.start, max a.stop b.stop⟩

def length (s : Span) : Nat := s.stop - s.start

def isEmpty (s : Span) : Bool := s.length == 0

theorem isEmpty_iff (s : Span) : s.isEmpty = true ↔ s.stop ≤ s.start := by
  simp only [isEmpty, length, beq_iff_eq]
  omega

theorem union_comm (a b : Span) : a.union b = b.union a := by
  simp [union, Nat.min_comm, Nat.max_comm]

theorem start_union_le (a b : Span) : (a.union b).start ≤ a.start :=
  Nat.min_le_left ..

theorem le_stop_union (a b : Span) : a.stop ≤ (a.union b).stop :=
  Nat.le_max_left ..

end Span

end Exemplar
