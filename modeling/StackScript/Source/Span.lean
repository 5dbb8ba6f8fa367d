/-!
# Positions and spans

A **position** is a place between two bytes of the source, given by its byte
offset together with the line and the column an editor would show. Lines and
columns count from one, and columns count bytes, so the three numbers move
together one byte at a time (`Pos.next`).

A **span** is what lies between two positions. The only operation on spans is
`Span.merge`, the smallest span that covers two others.
-/

namespace StackScript

/-- **A position in the source**: a place between two bytes. -/
structure Pos where
  /-- The number of bytes before the position. -/
  offset : Nat
  /-- The line, counted from one. -/
  line : Nat
  /-- The column in bytes, counted from one. -/
  column : Nat
deriving DecidableEq, Inhabited

namespace Pos

/-- The position before the first byte. -/
def origin : Pos := ⟨0, 1, 1⟩

/-- The position after one more byte: a line feed begins a line, any other
byte moves one column on. -/
def next (p : Pos) (byte : UInt8) : Pos :=
  if byte = 0x0A then ⟨p.offset + 1, p.line + 1, 1⟩
  else ⟨p.offset + 1, p.line, p.column + 1⟩

/-- The position as messages show it, `line:column`. -/
def text (p : Pos) : String := s!"{p.line}:{p.column}"

@[simp] theorem offset_next (p : Pos) (byte : UInt8) :
    (p.next byte).offset = p.offset + 1 := by
  unfold next; split <;> rfl

end Pos

/-- **A span of the source**, from one position to another. -/
structure Span where
  /-- Where the span begins. -/
  start : Pos
  /-- Where the span ends. -/
  stop : Pos
deriving DecidableEq, Inhabited

namespace Span

/-- The empty span at a position. -/
def point (p : Pos) : Span := ⟨p, p⟩

/-- **The smallest span that covers two spans.** Of two starts at one offset
the first span's is taken, of two ends at one offset the second span's. -/
def merge (a b : Span) : Span :=
  ⟨if b.start.offset < a.start.offset then b.start else a.start,
   if b.stop.offset < a.stop.offset then a.stop else b.stop⟩

/-- The span as messages show it, `line:column-line:column`. -/
def text (s : Span) : String := s!"{s.start.text}-{s.stop.text}"

end Span

end StackScript
