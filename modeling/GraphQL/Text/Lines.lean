import GraphQL.Text.Character

/-!
# Lines of a text

A line feed, a carriage return, and a carriage return with the line feed after it each end one line.
-/

namespace GraphQL

/-- Puts a character in front of the first line. -/
def consToHead (c : Char) : List (List Char) → List (List Char)
  | [] => [[c]]
  | line :: rest => (c :: line) :: rest

/-- The lines of a text, without their terminators; a text has one line more than it has terminators. -/
def lines : List Char → List (List Char)
  | [] => [[]]
  | '\r' :: '\n' :: rest => [] :: lines rest
  | c :: rest => if isLineTerminator c then [] :: lines rest else consToHead c (lines rest)

/-- The lines of a text that only line feeds end; a carriage return in front of a line feed belongs to the line's
end, and what follows the last line feed is a line only when it is not empty. -/
def feedLines : List Char → List (List Char)
  | [] => []
  | '\r' :: '\n' :: rest => [] :: feedLines rest
  | c :: rest => if c = '\n' then [] :: feedLines rest else consToHead c (feedLines rest)

theorem lines_ne_nil (text : List Char) : lines text ≠ [] := by
  fun_induction lines text with
  | case1 => simp
  | case2 => simp
  | case3 => simp
  | case4 c rest _ _ ih => cases h : lines rest <;> simp_all [consToHead]

theorem lines_cons {c : Char} (h : isLineTerminator c = false) (text : List Char) :
    lines (c :: text) = consToHead c (lines text) := by
  have hr : c ≠ '\r' := by rintro rfl; cases h
  rw [lines.eq_3, if_neg (by simp [h])]
  rintro r rfl
  exact absurd rfl hr

/-- A terminator ends the first line, unless it is the first half of a line ending. -/
theorem lines_terminator {c : Char} (h : isLineTerminator c = true) {text : List Char}
    (hpair : c = '\r' → text.head? ≠ some '\n') : lines (c :: text) = [] :: lines text := by
  rw [lines.eq_3, if_pos h]
  rintro r hc rfl
  exact hpair hc rfl

end GraphQL
