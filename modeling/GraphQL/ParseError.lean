import GraphQL.StringLiteral.Error
import GraphQL.Token

/-!
# Parse errors

A document that does not parse has one error: the fault found first, and where. The message, the notes under it and
the summary of its kind follow from the fault.
-/

namespace GraphQL

inductive DocumentKind where
  | executable
  | schema
deriving DecidableEq

def DocumentKind.describe : DocumentKind → String
  | executable => "executable document"
  | schema => "schema document"

/-- What stops a parse. -/
inductive ParseFault where
  | lexical (cause : LexicalError)
  /-- The grammar calls for one of `expected`, and `found` comes next. -/
  | unexpected (expected : List String) (found : Token.Kind)
  /-- The input ends inside a construct that `opened` began. -/
  | unclosed (close : Punctuator) (construct : String) (opened : Span)
  | badString (cause : StringError)
  | fragmentNamedOn
  | reservedEnumValue (name : String)
  /-- A definition that belongs into the other kind of document. -/
  | wrongDocument (found : String) (kind : DocumentKind)
  | emptyDocument (kind : DocumentKind)
  | emptyConstruct (construct : String)
  /-- An extension that adds nothing. -/
  | emptyExtension (keyword additions : String)
  | tooDeep (limit : Nat)
  | variableIn (place : String)
  | describedExtension
  | unknownLocation (text : String) (suggestion : Option String)
deriving DecidableEq

structure ParseError where
  fault : ParseFault
  span : Span
deriving DecidableEq

namespace ParseFault

/-- Joins alternatives with commas and a last "or". -/
def alternatives : List String → String
  | [] => "more input"
  | [only] => only
  | items => ", ".intercalate items.dropLast ++ " or " ++ items.getLastD ""

def quoted (text : String) : String := "`" ++ text ++ "`"

def message : ParseFault → String
  | lexical cause => cause.message
  | unexpected expected found =>
    let found := if found = .endOfInput then found.display else quoted found.display
    "expected " ++ alternatives expected ++ ", found " ++ found
  | unclosed close _ _ => "expected " ++ quoted close.text ++ ", found end of input"
  | badString cause => "invalid string literal: " ++ cause.message
  | fragmentNamedOn => "a fragment cannot be named `on`"
  | reservedEnumValue name => quoted name ++ " cannot be used as an enum value"
  | wrongDocument found kind => found ++ " is not allowed in a " ++ kind.describe
  | emptyDocument kind => "a " ++ kind.describe ++ " must contain at least one definition"
  | emptyConstruct construct => construct ++ " cannot be empty"
  | emptyExtension keyword additions => quoted ("extend " ++ keyword) ++ " must add " ++ additions
  | tooDeep limit => "maximum nesting depth of " ++ toString limit ++ " exceeded"
  | variableIn place => "variables are not allowed in " ++ place
  | describedExtension => "extensions cannot have descriptions"
  | unknownLocation text _ => "unknown directive location " ++ quoted text

/-- The kind of a fault in words. -/
def summary : ParseFault → String
  | lexical _ => "lexer error"
  | unexpected _ .endOfInput | unclosed .. => "unexpected end of input"
  | unexpected _ found => "unexpected token: " ++ quoted found.display
  | badString cause => "invalid value: " ++ cause.message
  | fragmentNamedOn => "reserved name: `on`"
  | reservedEnumValue name => "reserved name: " ++ quoted name
  | wrongDocument found kind => found ++ " is not allowed in a " ++ kind.describe
  | emptyDocument _ => "invalid empty construct: `document`"
  | emptyConstruct construct => "invalid empty construct: " ++ quoted construct
  | emptyExtension keyword _ => "invalid empty construct: " ++ quoted ("extend " ++ keyword)
  | tooDeep _ | variableIn _ | describedExtension | unknownLocation .. => "invalid syntax"

private def specification (production : String) : Note :=
  ⟨.spec, "https://spec.graphql.org/October2021/#" ++ production, none⟩

/-- The notes under the message of a fault found at `start`. -/
def notes (start : Position) : ParseFault → List Note
  | lexical cause => cause.notes start
  | unclosed _ construct opened => [⟨.general, construct ++ " opened here", some opened⟩]
  | fragmentNamedOn => [specification "FragmentName"]
  | reservedEnumValue _ => [specification "EnumValue"]
  | wrongDocument _ .executable => [⟨.help, "type-system definitions belong in a schema document", none⟩]
  | wrongDocument _ .schema => [⟨.help, "operations and fragments belong in an executable document", none⟩]
  | tooDeep _ => [⟨.help, "flatten deeply nested values, selections or list types", none⟩]
  | describedExtension => [⟨.help, "move the description onto the original definition", none⟩]
  | unknownLocation _ (some suggestion) => [⟨.help, "did you mean " ++ quoted suggestion ++ "?", none⟩]
  | _ => []

end ParseFault

namespace ParseError

def message (e : ParseError) : String := e.fault.message

def notes (e : ParseError) : List Note := e.fault.notes e.span.first

end ParseError

end GraphQL
