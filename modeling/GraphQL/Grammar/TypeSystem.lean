import GraphQL.Grammar.Executable
import GraphQL.Syntax.TypeSystem
import GraphQL.Text.EditDistance

/-!
# The grammar of schema documents

Definitions and extensions share their grammar; an extension has no description and has to add something.
-/

namespace GraphQL

/-- The first place whose name is the text in upper case, or one edit away from it. -/
def DirectiveLocation.suggest? (text : String) : Option DirectiveLocation :=
  let upper := text.toList.map Char.toUpper
  all.find? fun place => place.text.toList = upper || editDistance place.text.toList upper = 1

namespace Parse

/-- Directives whose arguments may not hold variables. -/
def constDirectives : Parse (List Directive) := directives .constDirective maxDepth

/-- An extension has to add something. -/
def requireAddition (isExtension : Bool) (start : Token) (nothing : Bool) (additions : String) : Parse Unit := do
  if isExtension && nothing then fail (.emptyExtension start.kind.display additions) start.span

def inputValueDefinition : Parse InputValueDefinition := do
  let description ← description
  let name ← name
  let start := (description.map (·.span)).getD name.span
  let _ ← expect .colon
  let type ← typeRef maxDepth
  let defaultValue ← match ← accept .equals with
    | some _ => some <$> value .inputDefault maxDepth
    | none => pure none
  let directives ← constDirectives
  return ⟨description, name, type, defaultValue, directives, ← spanFrom start⟩

def argumentDefinitions : Parse (List InputValueDefinition) :=
  delimitedIf .openParen .closeParen "argument definitions" inputValueDefinition

def fieldDefinition : Parse FieldDefinition := do
  let description ← description
  let name ← name
  let start := (description.map (·.span)).getD name.span
  let arguments ← argumentDefinitions
  let _ ← expect .colon
  let type ← typeRef maxDepth
  let directives ← constDirectives
  return ⟨description, name, arguments, type, directives, ← spanFrom start⟩

def enumValueDefinition : Parse EnumValueDefinition := do
  let description ← description
  let t ← peek
  if t.kind = .trueWord ∨ t.kind = .falseWord ∨ t.kind = .nullWord then
    fail (.reservedEnumValue t.kind.display) t.span
  let name ← name
  let start := (description.map (·.span)).getD name.span
  let directives ← constDirectives
  return ⟨description, name, directives, ← spanFrom start⟩

/-- `implements A & B`, or nothing; an `&` may stand in front. -/
def interfaces : Parse (List Name) := do
  if ← nextIsKeyword "implements" then
    advance
    let _ ← accept .ampersand
    separated .ampersand name
  else return []

/-- `= A | B`, or nothing; a `|` may stand in front. -/
def unionMembers : Parse (List Name) := do
  match ← accept .equals with
  | some _ =>
    let _ ← accept .pipe
    separated .pipe name
  | none => return []

def fieldDefinitions : Parse (List FieldDefinition) :=
  delimitedIf .openBrace .closeBrace "field definitions" fieldDefinition

/-- What follows the name in a definition of the kind; `start` is the keyword's token. -/
def typeBody (kind : TypeKind) (isExtension : Bool) (start : Token) : Parse (List Directive × TypeBody) := do
  match kind with
  | .scalar =>
    let directives ← constDirectives
    requireAddition isExtension start directives.isEmpty "directives"
    return (directives, .scalar)
  | .object | .interface =>
    let interfaces ← interfaces
    let directives ← constDirectives
    let fields ← fieldDefinitions
    requireAddition isExtension start (interfaces.isEmpty && directives.isEmpty && fields.isEmpty)
      "interfaces, directives or fields"
    return (directives, if kind matches .object then .object interfaces fields else .interface interfaces fields)
  | .union =>
    let directives ← constDirectives
    let members ← unionMembers
    requireAddition isExtension start (directives.isEmpty && members.isEmpty) "directives or member types"
    return (directives, .union members)
  | .enum =>
    let directives ← constDirectives
    let values ← delimitedIf .openBrace .closeBrace "enum values" enumValueDefinition
    requireAddition isExtension start (directives.isEmpty && values.isEmpty) "directives or values"
    return (directives, .enum values)
  | .inputObject =>
    let directives ← constDirectives
    let fields ← delimitedIf .openBrace .closeBrace "input fields" inputValueDefinition
    requireAddition isExtension start (directives.isEmpty && fields.isEmpty) "directives or fields"
    return (directives, .inputObject fields)

/-- A definition or extension of a type, from its keyword on; the node starts at `start`. -/
def typeDefinition (kind : TypeKind) (isExtension : Bool) (description : Option StringLiteral) (start : Span) :
    Parse TypeDefinition := do
  let sign ← peek
  advance
  let name ← name
  let (directives, body) ← typeBody kind isExtension sign
  return ⟨description, name, directives, body, ← spanFrom start⟩

def rootOperation : Parse RootOperation := do
  let t ← peek
  match t.kind.asName?.bind OperationKind.ofKeyword? with
  | some kind =>
    advance
    let _ ← expect .colon
    let typeName ← name
    return ⟨kind, typeName, ← spanFrom t.span⟩
  | none => unexpected t ["`query`", "`mutation`", "`subscription`"]

/-- A definition or extension of the schema, from its keyword on; the node starts at `start`. -/
def schemaDefinition (isExtension : Bool) (description : Option StringLiteral) (start : Span) :
    Parse SchemaDefinition := do
  let sign ← keyword "schema"
  let directives ← constDirectives
  let construct := "root operation types"
  let rootOperations ←
    if isExtension then delimitedIf .openBrace .closeBrace construct rootOperation
    else (·.1) <$> delimited .openBrace .closeBrace construct false rootOperation
  requireAddition isExtension sign (directives.isEmpty && rootOperations.isEmpty)
    "directives or root operation types"
  return ⟨description, directives, rootOperations, ← spanFrom start⟩

def directiveLocation : Parse LocatedPlace := do
  let t ← peek
  match t.kind.asName? with
  | none => unexpected t ["directive location"]
  | some text =>
    match DirectiveLocation.ofText? text with
    | none => fail (.unknownLocation text ((DirectiveLocation.suggest? text).map (·.text))) t.span
    | some place =>
      advance
      return ⟨place, t.span⟩

/-- A definition of a directive, from its keyword on; the node starts at `start`. -/
def directiveDefinition (description : Option StringLiteral) (start : Span) : Parse DirectiveDefinition := do
  let _ ← keyword "directive"
  let _ ← expect .atSign
  let name ← name
  let arguments ← argumentDefinitions
  let repeatable ← nextIsKeyword "repeatable"
  if repeatable then advance
  let _ ← keyword "on"
  let _ ← accept .pipe
  let locations ← separated .pipe directiveLocation
  return ⟨description, name, arguments, repeatable, locations, ← spanFrom start⟩

def extension : Parse TypeSystemDefinition := do
  let extend ← keyword "extend"
  let t ← peek
  match t.kind with
  | .name "schema" => return .schemaExtension (← schemaDefinition true none extend.span)
  | .name word =>
    match TypeKind.ofKeyword? word with
    | some kind => return .typeExtension (← typeDefinition kind true none extend.span)
    | none => unexpectedExtension t
  | _ => unexpectedExtension t
where
  unexpectedExtension (t : Token) : Parse TypeSystemDefinition :=
    unexpected t ["`schema`", "`scalar`", "`type`", "`interface`", "`union`", "`enum`", "`input`"]

def typeSystemDefinition : Parse TypeSystemDefinition := do
  let description ← description
  let t ← peek
  let start := (description.map (·.span)).getD t.span
  match t.kind with
  | .punctuator .openBrace => fail (.wrongDocument "an operation" .schema) t.span
  | .name "schema" => return .schema (← schemaDefinition false description start)
  | .name "directive" => return .directive (← directiveDefinition description start)
  | .name "extend" =>
    match description with
    | some text => fail .describedExtension text.span
    | none => extension
  | .name word =>
    match TypeKind.ofKeyword? word with
    | some kind => return .type (← typeDefinition kind false description start)
    | none =>
      match definitionOfKeyword? word with
      | some found => fail (.wrongDocument found .schema) t.span
      | none => unexpectedDefinition t
  | _ => unexpectedDefinition t
where
  unexpectedDefinition (t : Token) : Parse TypeSystemDefinition :=
    unexpected t ["`schema`", "`scalar`", "`type`", "`interface`", "`union`", "`enum`", "`input`", "`directive`",
      "`extend`"]

def schemaDocument : Parse SchemaDocument := do
  let (definitions, span) ← definitions .schema typeSystemDefinition
  return ⟨definitions, span⟩

end Parse

/-- Parses a source text as a schema document. -/
def SchemaDocument.parse (source : String) : Except ParseError SchemaDocument :=
  Parse.schemaDocument.run (tokens source)

end GraphQL
