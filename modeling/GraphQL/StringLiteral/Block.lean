import GraphQL.StringLiteral.Error
import GraphQL.Text.Lines

/-!
# Block strings

A block string stands between two triple quotes and may run over several lines. Its value leaves out the
indentation that its lines share and the blank lines around it; the only escape is a backslash before a triple
quote.
-/

namespace GraphQL.Block

def tripleQuote : List Char := ['"', '"', '"']

/-- Takes the backslash away in front of every triple quote. -/
def unescape : List Char → List Char
  | '\\' :: '"' :: '"' :: '"' :: rest => '"' :: '"' :: '"' :: unescape rest
  | c :: rest => c :: unescape rest
  | [] => []

def isIndent (c : Char) : Bool := c = ' ' || c = '\t'

/-- The number of spaces and tabs that a line starts with. -/
def indentation (line : List Char) : Nat := (line.takeWhile isIndent).length

/-- A line of nothing but spaces and tabs. -/
def isBlankLine (line : List Char) : Bool := line.all isIndent

/-- The least indentation of the lines that are not blank. -/
def commonIndent (lines : List (List Char)) : Nat :=
  ((lines.filter (!isBlankLine ·)).map indentation).min?.getD 0

/-- Takes `n` characters off the front of a line that has as many; a shorter line stays. -/
def outdent (n : Nat) (line : List Char) : List Char := if line.length < n then line else line.drop n

/-- Drops the blank lines at both ends. -/
def trimBlank (lines : List (List Char)) : List (List Char) :=
  ((lines.dropWhile isBlankLine).reverse.dropWhile isBlankLine).reverse

/-- The value of the lines of a block string: the lines after the first lose the indentation they share. -/
def value : List (List Char) → List Char
  | [] => []
  | first :: rest => ['\n'].intercalate (trimBlank (first :: rest.map (outdent (commonIndent rest))))

/-- The value of the text between the triple quotes. -/
def decode (text : List Char) : List Char := value (lines (unescape text))

/-- The value of a literal with its quotes. -/
def cook (raw : String) : Except StringError String :=
  match between? tripleQuote raw.toList with
  | some text => .ok (String.ofList (decode text))
  | none => .error .unterminated

end GraphQL.Block
