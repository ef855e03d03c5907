import GraphQL.Source.Position

/-!
# Spans of source text

A span is the half-open stretch between two positions. The span of a syntax tree's node runs from the start of its
first token to the end of its last.
-/

namespace GraphQL

structure Span where
  first : Position
  stop : Position
deriving DecidableEq

namespace Span

/-- The span that stands for no place: both ends at the origin. -/
def nowhere : Span := ⟨.origin, .origin⟩

/-- The empty span at a position. -/
def emptyAt (p : Position) : Span := ⟨p, p⟩

/-- The smallest span over both; where two ends lie at the same byte, the left operand's is kept. -/
def merge (a b : Span) : Span where
  first := if b.first.offset < a.first.offset then b.first else a.first
  stop := if b.stop.offset > a.stop.offset then b.stop else a.stop

/-- From the start of one span to the end of another. -/
def through (a b : Span) : Span := ⟨a.first, b.stop⟩

/-- The number of bytes in the span. -/
def size (s : Span) : Nat := s.stop.offset - s.first.offset

def isEmpty (s : Span) : Bool := s.size = 0

end Span

/-- Drops exactly `n` bytes, or fails when a character straddles the cut or the text is too short. -/
def dropBytes (n : Nat) : List Char → Option (List Char)
  | [] => if n = 0 then some [] else none
  | c :: text =>
    if n = 0 then some (c :: text)
    else if c.utf8Size ≤ n then dropBytes (n - c.utf8Size) text
    else none

/-- Takes exactly `n` bytes, or fails when a character straddles the cut or the text is too short. -/
def takeBytes (n : Nat) : List Char → Option (List Char)
  | [] => if n = 0 then some [] else none
  | c :: text =>
    if n = 0 then some []
    else if c.utf8Size ≤ n then (takeBytes (n - c.utf8Size) text).map (c :: ·)
    else none

/-- The text that the span covers, or nothing when the span does not fit in the source or cuts a character. -/
def Span.slice? (s : Span) (source : String) : Option String :=
  if s.first.offset ≤ s.stop.offset then
    (dropBytes s.first.offset source.toList).bind fun rest => (takeBytes s.size rest).map String.ofList
  else none

/-- The text that the span covers, empty when it does not fit. -/
def Span.text (s : Span) (source : String) : String := (s.slice? source).getD ""

end GraphQL
