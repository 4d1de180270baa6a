/-! # Places in a script -/

namespace ScriptTyping

/-- `index` counts from the start of the script, `line` from 1, `column` from 0. -/
structure Position where
  index : Nat
  line : Nat
  column : Nat
deriving DecidableEq

structure Span where
  start : Position
  stop : Position
deriving DecidableEq

namespace Span

/-- The span of a node that has no text. -/
def empty : Span := ⟨⟨0, 0, 0⟩, ⟨0, 0, 0⟩⟩

/-- A span that stops before it starts has length zero. -/
def length (s : Span) : Nat := s.stop.index - s.start.index

def isEmpty (s : Span) : Bool := s.length == 0

/-- The smallest span over both; on equal indices the first span's end is kept. -/
def cover (s t : Span) : Span where
  start := if t.start.index < s.start.index then t.start else s.start
  stop := if s.stop.index < t.stop.index then t.stop else s.stop

end Span

end ScriptTyping
