/-!
# Spans

Where something stands in a sequence: in a text, counted in bytes, or in a list of lexemes, counted
in lexemes.
-/

namespace BoardTrial

/-- The stretch from `start` up to `stop`, which is no longer part of it. -/
structure Span where
  /-- Where it starts. -/
  start : Nat
  /-- Where it ends. -/
  stop : Nat
  deriving DecidableEq

namespace Span

/-- How long the stretch is. -/
def length (s : Span) : Nat := s.stop - s.start

/-- The empty stretch at a place. -/
def point (n : Nat) : Span := ⟨n, n⟩

end Span

/-- A value and where it stands. -/
structure Located (α : Type) where
  /-- The value. -/
  value : α
  /-- Where it stands. -/
  span : Span
  deriving DecidableEq

end BoardTrial
