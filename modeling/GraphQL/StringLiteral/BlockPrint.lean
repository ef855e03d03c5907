import GraphQL.StringLiteral.Block
import GraphQL.Text.Character

/-!
# Writing block strings

A value is written as a block string only when cooking gives it back: its first and last lines are not blank, it
ends in neither a quote nor a backslash, it has no control characters but tabs and line feeds, and no line after
the first starts with a space or tab. The indentation that a printer adds to the lines after the first is then the
one that cooking takes away.
-/

namespace GraphQL.Block

/-- Puts a backslash in front of every triple quote. -/
def escape : List Char → List Char
  | '"' :: '"' :: '"' :: rest => '\\' :: '"' :: '"' :: '"' :: escape rest
  | c :: rest => c :: escape rest
  | [] => []

/-- Whether cooking gives the value back from a block string, however its lines are indented. -/
def isPrintable (value : List Char) : Bool :=
  let all := lines value
  !(all.head?.any isBlankLine) && !(all.getLast?.any isBlankLine) &&
    value.getLast? ≠ some '"' && value.getLast? ≠ some '\\' &&
    value.all (fun c => c = '\n' || c = '\t' || !isControl c) &&
    (all.drop 1).all fun line => !(line.head?.any isIndent)

/-- The block string of a value, if there is one. -/
def print? (value : List Char) : Option (List Char) :=
  if isPrintable value then some (tripleQuote ++ escape value ++ tripleQuote) else none

end GraphQL.Block
