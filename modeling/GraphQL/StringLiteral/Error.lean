/-!
# Faults in the text of a string literal
-/

namespace GraphQL

inductive StringError where
  | invalidEscape (text : String)
  | invalidUnicodeEscape (text : String)
  | unterminated
deriving DecidableEq

def StringError.message : StringError → String
  | invalidEscape text => "Invalid escape sequence: `" ++ text ++ "`"
  | invalidUnicodeEscape text => "Invalid unicode escape: `" ++ text ++ "`"
  | unterminated => "Unterminated string: missing closing quote"

/-- What stands between an opening and a closing delimiter, if the text is long enough for both. -/
def between? (delimiter text : List Char) : Option (List Char) :=
  let n := delimiter.length
  if 2 * n ≤ text.length ∧ text.take n = delimiter ∧ text.drop (text.length - n) = delimiter then
    some ((text.drop n).take (text.length - 2 * n))
  else none

end GraphQL
