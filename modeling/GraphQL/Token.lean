import GraphQL.Note

/-!
# Tokens

The tokens of the lexical grammar. A literal keeps its text, a string its quotes too. The last token of a source
text is `endOfInput`, or `error` with the cause that stopped the lexer.
-/

namespace GraphQL

/-- What is wrong with the text of a number. -/
inductive NumberFault where
  | leadingZero
  | noFractionDigit
  | noExponentDigit
  | trailingText
deriving DecidableEq

namespace NumberFault

def message : NumberFault → String
  | leadingZero => "leading zeros are not allowed"
  | noFractionDigit => "expected a digit after `.`"
  | noExponentDigit => "exponent must have at least one digit"
  | trailingText => "a number cannot be directly followed by a name or `.`"

/-- The production of the specification that the number breaks. -/
def production : NumberFault → String
  | leadingZero | trailingText => "IntValue"
  | noFractionDigit | noExponentDigit => "FloatValue"

end NumberFault

/-- Why no token starts at a place. -/
inductive LexicalError where
  /-- One or two dots where three were needed. -/
  | dots (count : Nat)
  | loneMinus
  | number (fault : NumberFault) (text : String)
  | stringAtEndOfInput
  | stringAtEndOfLine
  | blockStringAtEndOfInput
  | character (c : Char)
deriving DecidableEq

namespace LexicalError

def message : LexicalError → String
  | dots count => "Unexpected `" ++ String.ofList (List.replicate count '.') ++ "`"
  | loneMinus => "Unexpected `-`"
  | number fault text => "Invalid number: " ++ fault.message ++ ": `" ++ text ++ "`"
  | stringAtEndOfInput | stringAtEndOfLine => "Unterminated string literal"
  | blockStringAtEndOfInput => "Unterminated block string"
  | character c => "Unexpected character " ++ describeChar c

/-- The notes under the message of an error that starts at `start`. -/
def notes (start : Position) : LexicalError → List Note
  | dots 2 => [⟨.help, "Add one more `.` to form the spread operator `...`", none⟩]
  | number fault _ => [⟨.spec, "https://spec.graphql.org/October2021/#" ++ fault.production, none⟩]
  | stringAtEndOfInput =>
    [⟨.general, "String started here", some (.emptyAt start)⟩, ⟨.help, "Add closing `\"`", none⟩]
  | stringAtEndOfLine =>
    [⟨.general, "Single-line strings cannot contain unescaped line terminators", none⟩,
      ⟨.help, "Use a block string (`\"\"\"`) for multi-line text, or escape the line break with `\\n`", none⟩]
  | blockStringAtEndOfInput =>
    [⟨.general, "Block string started here", some (.emptyAt start)⟩, ⟨.help, "Add closing `\"\"\"`", none⟩]
  | _ => []

end LexicalError

/-- The tokens that are one fixed sign. -/
inductive Punctuator where
  | ampersand
  | atSign
  | bang
  | colon
  | closeBrace
  | openBrace
  | dollar
  | ellipsis
  | equals
  | closeParen
  | openParen
  | pipe
  | closeBracket
  | openBracket
deriving DecidableEq

namespace Punctuator

def text : Punctuator → String
  | ampersand => "&"
  | atSign => "@"
  | bang => "!"
  | colon => ":"
  | closeBrace => "\x7d"
  | openBrace => "\x7b"
  | dollar => "$"
  | ellipsis => "..."
  | equals => "="
  | closeParen => ")"
  | openParen => "("
  | pipe => "|"
  | closeBracket => "]"
  | openBracket => "["

/-- The punctuator that is the one character. -/
def ofChar? : Char → Option Punctuator
  | '&' => some ampersand
  | '@' => some atSign
  | '!' => some bang
  | ':' => some colon
  | '}' => some closeBrace
  | '{' => some openBrace
  | '$' => some dollar
  | '=' => some equals
  | ')' => some closeParen
  | '(' => some openParen
  | '|' => some pipe
  | ']' => some closeBracket
  | '[' => some openBracket
  | _ => none

end Punctuator

/-- The kinds of token. The words `true`, `false` and `null` have kinds of their own. -/
inductive Token.Kind where
  | punctuator (sign : Punctuator)
  | name (text : String)
  | int (text : String)
  | float (text : String)
  | string (text : String)
  | blockString (text : String)
  | trueWord
  | falseWord
  | nullWord
  | endOfInput
  | error (cause : LexicalError)
deriving DecidableEq

namespace Token.Kind

/-- The text of a token that can stand where a name is wanted. -/
def asName? : Token.Kind → Option String
  | name text => some text
  | trueWord => some "true"
  | falseWord => some "false"
  | nullWord => some "null"
  | _ => none

def isPunctuator : Token.Kind → Bool
  | punctuator _ => true
  | _ => false

def isError : Token.Kind → Bool
  | error _ => true
  | _ => false

/-- How messages speak of a token. -/
def display : Token.Kind → String
  | punctuator sign => sign.text
  | name text | int text | float text => text
  | string _ | blockString _ => "string"
  | trueWord => "true"
  | falseWord => "false"
  | nullWord => "null"
  | endOfInput => "end of input"
  | error cause => "tokenization error: " ++ cause.message

/-- Whether two tokens are of one kind, whatever the text of a literal. -/
def sameVariant : Token.Kind → Token.Kind → Bool
  | punctuator a, punctuator b => a = b
  | name _, name _ | int _, int _ | float _, float _ | string _, string _ | blockString _, blockString _ => true
  | trueWord, trueWord | falseWord, falseWord | nullWord, nullWord => true
  | endOfInput, endOfInput | error _, error _ => true
  | _, _ => false

end Token.Kind

structure Token where
  kind : Token.Kind
  span : Span
deriving DecidableEq

end GraphQL
