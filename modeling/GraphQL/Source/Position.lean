import GraphQL.Text.Lines
import GraphQL.Text.Units

/-!
# Positions in a source text

A position counts four things at once: lines, characters since the last line terminator, UTF-16 code units since
the last line terminator, and UTF-8 bytes since the start. All counts start at zero. A reading point (`Cursor`)
moves over a text one character at a time (`Cursor.after`), over a stretch without line terminators at once
(`Cursor.along`), or line by line (`Cursor.across`); `Position.after` counts the same place afresh from the text
before it.
-/

namespace GraphQL

structure Position where
  line : Nat
  column : Nat
  column16 : Nat
  offset : Nat
deriving DecidableEq

namespace Position

/-- The position before the first character. -/
def origin : Position := ⟨0, 0, 0, 0⟩

/-- The position after the text: the number of its line terminators, the length of its last line in characters and
in UTF-16 code units, and its length in bytes. -/
def after (text : List Char) : Position :=
  let last := (lines text).getLast (lines_ne_nil text)
  ⟨(lines text).length - 1, last.length, utf16Length last, utf8Length text⟩

/-- The line and column that a reader sees, both counted from one. -/
def lineColumn (p : Position) : Nat × Nat := (p.line + 1, p.column + 1)

end Position

/-- A position, and whether the character before it is a carriage return: a line feed that follows then belongs to
the same line ending. -/
structure Cursor where
  position : Position
  afterReturn : Bool
deriving DecidableEq

namespace Cursor

def start : Cursor := ⟨.origin, false⟩

/-- The reading point after one more character. -/
def step (c : Cursor) (ch : Char) : Cursor :=
  let p := c.position
  let offset := p.offset + ch.utf8Size
  if ch = '\n' ∧ c.afterReturn then ⟨{ p with offset }, false⟩
  else if isLineTerminator ch then ⟨⟨p.line + 1, 0, 0, offset⟩, ch = '\r'⟩
  else ⟨⟨p.line, p.column + 1, p.column16 + utf16Size ch, offset⟩, false⟩

/-- The reading point after a stretch of text. -/
def after (c : Cursor) (text : List Char) : Cursor := text.foldl step c

@[simp] theorem after_nil (c : Cursor) : c.after [] = c := rfl

@[simp] theorem after_cons (c : Cursor) (ch : Char) (text : List Char) :
    c.after (ch :: text) = (c.step ch).after text := rfl

theorem after_append (c : Cursor) (s t : List Char) : c.after (s ++ t) = (c.after s).after t :=
  List.foldl_append

/-- The reading point after a stretch that holds no line terminator: only the columns grow. -/
def along (c : Cursor) (stretch : List Char) : Cursor where
  position :=
    { c.position with
      column := c.position.column + stretch.length
      column16 := c.position.column16 + utf16Length stretch
      offset := c.position.offset + utf8Length stretch }
  afterReturn := c.afterReturn && stretch.isEmpty

/-- The reading point after a text that may hold line terminators: along what stands before the first of them, over
it, and on from there. -/
def across (c : Cursor) (text : List Char) : Cursor :=
  match _h : text.dropWhile (!isLineTerminator ·) with
  | [] => c.along text
  | terminator :: rest =>
    ((c.along (text.takeWhile (!isLineTerminator ·))).step terminator).across rest
termination_by text.length
decreasing_by
  have := (List.dropWhile_sublist (!isLineTerminator ·) (l := text)).length_le
  simp only [_h, List.length_cons] at this
  omega

end Cursor

end GraphQL
