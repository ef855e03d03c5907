import GraphQL.Grammar.Value
import GraphQL.Syntax.Executable
import GraphQL.Token.Lexer

/-!
# The grammar of executable documents
-/

namespace GraphQL

namespace Parse

/-- `on Type` -/
def typeCondition : Parse TypeCondition := do
  let sign ← keyword "on"
  let typeName ← name
  return ⟨typeName, ← spanFrom sign.span⟩

/-- What follows the dots and the type condition of an inline fragment. -/
def inlineRest (depth : Nat) (selectionSet : Parse SelectionSet) (start : Span) (condition : Option TypeCondition) :
    Parse Selection := do
  let directives ← directives .anywhere depth
  let selectionSet ← selectionSet
  return .inline ⟨condition, directives, selectionSet, ← spanFrom start⟩

/-- `...Name`, `... on Type`, or dots in front of directives or a selection set. -/
def fragmentSelection (depth : Nat) (selectionSet : Parse SelectionSet) : Parse Selection := do
  let dots ← expect .ellipsis
  let t ← peek
  if t.kind = .name "on" then
    let condition ← typeCondition
    inlineRest depth selectionSet dots.span (some condition)
  else if t.kind = .punctuator .atSign ∨ t.kind = .punctuator .openBrace then
    inlineRest depth selectionSet dots.span none
  else if t.kind.asName?.isSome then
    let name ← name
    let directives ← directives .anywhere depth
    return .spread ⟨name, directives, ← spanFrom dots.span⟩
  else unexpected t ["fragment name", "`on`", "`@`", "`\x7b`"]

def field (depth : Nat) (selectionSet : Parse SelectionSet) : Parse Field := do
  let first ← name
  let (aliasName, name) ← match ← accept .colon with
    | some _ => pure (some first, ← name)
    | none => pure (none, first)
  let arguments ← arguments .anywhere depth
  let directives ← directives .anywhere depth
  let selectionSet ← if ← nextIs .openBrace then some <$> selectionSet else pure none
  return ⟨aliasName, name, arguments, directives, selectionSet, ← spanFrom first.span⟩

def selection (depth : Nat) (selectionSet : Parse SelectionSet) : Parse Selection := do
  let t ← peek
  if t.kind = .punctuator .ellipsis then fragmentSelection depth selectionSet
  else if t.kind.asName?.isSome then return .field (← field depth selectionSet)
  else unexpected t ["field", "`...`", "`\x7d`"]

/-- A selection set with as many levels of nesting left as the number says. -/
def selectionSet : Nat → Parse SelectionSet
  | 0 => tooDeep
  | depth + 1 => do
    let (selections, span) ←
      delimited .openBrace .closeBrace "selection set" false (selection depth (selectionSet depth))
    return ⟨selections, span⟩

def variableDefinition : Parse VariableDefinition := do
  let dollar ← expect .dollar
  let name ← name
  let _ ← expect .colon
  let type ← typeRef maxDepth
  let defaultValue ← match ← accept .equals with
    | some _ => some <$> value .variableDefault maxDepth
    | none => pure none
  let directives ← directives .constDirective maxDepth
  return ⟨name, dollar.span.merge name.span, type, defaultValue, directives, ← spanFrom dollar.span⟩

/-- An operation that its keyword begins. -/
def keywordOperation (kind : OperationKind) : Parse Operation := do
  let start ← peek
  advance
  let name ← if (← peek).kind.asName?.isSome then some <$> name else pure none
  let definitions ← delimitedIf .openParen .closeParen "variable definitions" variableDefinition
  let directives ← directives .anywhere maxDepth
  let selectionSet ← selectionSet maxDepth
  return ⟨kind, name, definitions, directives, selectionSet, false, ← spanFrom start.span⟩

/-- An anonymous query without keyword. -/
def shorthandQuery : Parse Operation := do
  let selectionSet ← selectionSet maxDepth
  return ⟨.query, none, [], [], selectionSet, true, selectionSet.span⟩

def fragmentDefinition : Parse Fragment := do
  let start ← keyword "fragment"
  let t ← peek
  if t.kind = .name "on" then fail .fragmentNamedOn t.span
  let name ← name
  let condition ← typeCondition
  let directives ← directives .anywhere maxDepth
  let selectionSet ← selectionSet maxDepth
  return ⟨name, condition, directives, selectionSet, ← spanFrom start.span⟩

/-- What a keyword would begin in the other kind of document. -/
def definitionOfKeyword? (word : String) : Option String :=
  if word ∈ ["query", "mutation", "subscription"] then some "an operation"
  else if word = "fragment" then some "a fragment definition"
  else if word = "schema" then some "a schema definition"
  else if word ∈ ["scalar", "type", "interface", "union", "enum", "input"] then some "a type definition"
  else if word = "directive" then some "a directive definition"
  else if word = "extend" then some "a type-system extension"
  else none

def definition : Parse Definition := do
  let t ← peek
  match t.kind with
  | .punctuator .openBrace => return .operation (← shorthandQuery)
  | .string _ | .blockString _ => fail (.wrongDocument "a described type-system definition" .executable) t.span
  | .name word =>
    match OperationKind.ofKeyword? word with
    | some kind => return .operation (← keywordOperation kind)
    | none =>
      if word = "fragment" then return .fragment (← fragmentDefinition)
      else match definitionOfKeyword? word with
        | some found => fail (.wrongDocument found .executable) t.span
        | none => unexpectedDefinition t
  | _ => unexpectedDefinition t
where
  unexpectedDefinition (t : Token) : Parse Definition :=
    unexpected t ["`\x7b`", "`query`", "`mutation`", "`subscription`", "`fragment`"]

/-- One or more definitions up to the end of the input, with the span from the first token to the last. -/
def definitions {α : Type} (kind : DocumentKind) (definition : Parse α) : Parse (List α × Span) := do
  let start ← peek
  let definitions ← repeated do
    if (← peek).kind = .endOfInput then return none
    else some <$> definition
  if definitions.isEmpty then fail (.emptyDocument kind) start.span
  return (definitions, ← spanFrom start.span)

def document : Parse Document := do
  let (definitions, span) ← definitions .executable definition
  return ⟨definitions, span⟩

end Parse

/-- Parses a source text as an executable document. -/
def Document.parse (source : String) : Except ParseError Document := Parse.document.run (tokens source)

end GraphQL
