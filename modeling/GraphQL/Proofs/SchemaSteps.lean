import GraphQL.Grammar.TypeSystem
import GraphQL.Proofs.ParseSteps

/-!
# Parts of schema definitions as steps

Parts that the grammar parses in place, as parse steps of their own, so that definitions are sequences of steps
(`inputValueDefinition_eq`, `schemaDefinition_eq`, `directiveDefinition_eq`). The bodies of types come down to two
forms: with interfaces and fields (`fieldsBody`), and with one list of parts (`partsBody`).
-/

namespace GraphQL.Parse

/-- A parameter or an input field in its steps. -/
theorem inputValueDefinition_eq : inputValueDefinition = do
    let description ← description
    let name ← name
    let _ ← expect .colon
    let type ← typeRef maxDepth
    let defaultValue ← behind? .equals (value .inputDefault maxDepth)
    let directives ← constDirectives
    return ⟨description, name, type, defaultValue, directives,
      ← spanFrom ((description.map (·.span)).getD name.span)⟩ := by
  refine bind_congr fun description => bind_congr fun name => bind_congr fun _ => bind_congr fun type => ?_
  rw [behind?, bind_assoc]
  refine bind_congr fun o => ?_
  cases o <;> rfl

/-- The name of an enum value, which must not be a reserved word. -/
def enumValueName : Parse Name := do
  let t ← peek
  if t.kind = .trueWord ∨ t.kind = .falseWord ∨ t.kind = .nullWord then
    fail (.reservedEnumValue t.kind.display) t.span
  else name

theorem enumValueDefinition_eq : enumValueDefinition = do
    let description ← description
    let name ← enumValueName
    let directives ← constDirectives
    return ⟨description, name, directives, ← spanFrom ((description.map (·.span)).getD name.span)⟩ := by
  refine bind_congr fun description => ?_
  rw [enumValueName, bind_assoc]
  refine bind_congr fun t => ?_
  split <;> rfl

/-- The root operations of a schema, which an extension may leave out. -/
def rootOperations (isExtension : Bool) : Parse (List RootOperation) :=
  if isExtension then delimitedIf .openBrace .closeBrace "root operation types" rootOperation
  else (·.1) <$> delimited .openBrace .closeBrace "root operation types" false rootOperation

theorem schemaDefinition_eq (isExtension : Bool) (description : Option StringLiteral) (start : Span) :
    schemaDefinition isExtension description start = do
      let sign ← keyword "schema"
      let directives ← constDirectives
      let roots ← rootOperations isExtension
      requireAddition isExtension sign (directives.isEmpty && roots.isEmpty) "directives or root operation types"
      return ⟨description, directives, roots, ← spanFrom start⟩ := by
  refine bind_congr fun sign => bind_congr fun directives => ?_
  cases isExtension <;> rfl

/-- Whether a directive may be repeated; the keyword that says so is consumed. -/
def repeatable : Parse Bool := do
  if ← nextIsKeyword "repeatable" then
    advance
    return true
  else return false

/-- Items after a sign that may stand in front of them. -/
def listed {α : Type} (sign : Punctuator) (item : Parse α) : Parse (List α) := do
  let _ ← accept sign
  separated sign item

/-- The definition of a directive in its steps. -/
theorem directiveDefinition_eq (description : Option StringLiteral) (start : Span) :
    directiveDefinition description start = do
      let _ ← keyword "directive"
      let _ ← expect .atSign
      let name ← name
      let arguments ← argumentDefinitions
      let repeatable ← repeatable
      let _ ← keyword "on"
      let locations ← listed .pipe directiveLocation
      return ⟨description, name, arguments, repeatable, locations, ← spanFrom start⟩ := by
  refine bind_congr fun _ => bind_congr fun _ => bind_congr fun name => bind_congr fun arguments => ?_
  simp only [repeatable, listed, bind_assoc]
  refine bind_congr fun b => ?_
  cases b <;> simp

theorem interfaces_eq : interfaces = do
    if ← nextIsKeyword "implements" then
      advance
      listed .ampersand name
    else return [] := rfl

theorem unionMembers_eq : unionMembers = do
    match ← accept .equals with
    | some _ => listed .pipe name
    | none => return [] := rfl

/-- What follows the name of a type that has interfaces and fields. -/
def fieldsBody (make : List Name → List FieldDefinition → TypeBody) (isExtension : Bool) (start : Token) :
    Parse (List Directive × TypeBody) := do
  let interfaces ← interfaces
  let directives ← constDirectives
  let fields ← fieldDefinitions
  requireAddition isExtension start (interfaces.isEmpty && directives.isEmpty && fields.isEmpty)
    "interfaces, directives or fields"
  return (directives, make interfaces fields)

/-- What follows the name of a type that has one list of parts, behind its directives. -/
def partsBody {α : Type} (make : List α → TypeBody) (parts : Parse (List α)) (additions : String)
    (isExtension : Bool) (start : Token) : Parse (List Directive × TypeBody) := do
  let directives ← constDirectives
  let parts ← parts
  requireAddition isExtension start (directives.isEmpty && parts.isEmpty) additions
  return (directives, make parts)

/-- The body of a type, by its kind. -/
theorem typeBody_eq (kind : TypeKind) (isExtension : Bool) (start : Token) : typeBody kind isExtension start =
    match kind with
    | .scalar => do
      let directives ← constDirectives
      requireAddition isExtension start directives.isEmpty "directives"
      return (directives, .scalar)
    | .object => fieldsBody .object isExtension start
    | .interface => fieldsBody .interface isExtension start
    | .union => partsBody .union unionMembers "directives or member types" isExtension start
    | .enum =>
      partsBody .enum (delimitedIf .openBrace .closeBrace "enum values" enumValueDefinition) "directives or values"
        isExtension start
    | .inputObject =>
      partsBody .inputObject (delimitedIf .openBrace .closeBrace "input fields" inputValueDefinition)
        "directives or fields" isExtension start := by
  cases kind <;> rfl

end GraphQL.Parse
