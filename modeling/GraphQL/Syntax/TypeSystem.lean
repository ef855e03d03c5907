import GraphQL.Syntax.Executable

/-!
# Schema documents

Definitions and extensions of types, of the schema and of directives. An extension is written like the definition
of its kind, and has no description.
-/

namespace GraphQL

/-- The places where a directive may be applied; the first eight lie in executable documents. -/
inductive DirectiveLocation where
  | query
  | mutation
  | subscription
  | field
  | fragmentDefinition
  | fragmentSpread
  | inlineFragment
  | variableDefinition
  | schema
  | scalar
  | object
  | fieldDefinition
  | argumentDefinition
  | interface
  | union
  | enum
  | enumValue
  | inputObject
  | inputFieldDefinition
deriving DecidableEq

namespace DirectiveLocation

def all : List DirectiveLocation :=
  [query, mutation, subscription, field, fragmentDefinition, fragmentSpread, inlineFragment, variableDefinition,
    schema, scalar, object, fieldDefinition, argumentDefinition, interface, union, enum, enumValue, inputObject,
    inputFieldDefinition]

def text : DirectiveLocation → String
  | query => "QUERY"
  | mutation => "MUTATION"
  | subscription => "SUBSCRIPTION"
  | field => "FIELD"
  | fragmentDefinition => "FRAGMENT_DEFINITION"
  | fragmentSpread => "FRAGMENT_SPREAD"
  | inlineFragment => "INLINE_FRAGMENT"
  | variableDefinition => "VARIABLE_DEFINITION"
  | schema => "SCHEMA"
  | scalar => "SCALAR"
  | object => "OBJECT"
  | fieldDefinition => "FIELD_DEFINITION"
  | argumentDefinition => "ARGUMENT_DEFINITION"
  | interface => "INTERFACE"
  | union => "UNION"
  | enum => "ENUM"
  | enumValue => "ENUM_VALUE"
  | inputObject => "INPUT_OBJECT"
  | inputFieldDefinition => "INPUT_FIELD_DEFINITION"

def ofText? (s : String) : Option DirectiveLocation := all.find? (·.text = s)

def isExecutable : DirectiveLocation → Bool
  | query | mutation | subscription | field | fragmentDefinition | fragmentSpread | inlineFragment
  | variableDefinition => true
  | _ => false

end DirectiveLocation

/-- One entry of the list of places in a directive's definition. -/
structure LocatedPlace where
  place : DirectiveLocation
  span : Span
deriving DecidableEq

/-- An argument of a field or directive, or a field of an input object. -/
structure InputValueDefinition where
  description : Option StringLiteral
  name : Name
  type : TypeRef
  defaultValue : Option Value
  directives : List Directive
  span : Span

structure FieldDefinition where
  description : Option StringLiteral
  name : Name
  arguments : List InputValueDefinition
  type : TypeRef
  directives : List Directive
  span : Span

structure EnumValueDefinition where
  description : Option StringLiteral
  name : Name
  directives : List Directive
  span : Span

/-- The six kinds of type. -/
inductive TypeKind where
  | scalar
  | object
  | interface
  | union
  | enum
  | inputObject
deriving DecidableEq

namespace TypeKind

def all : List TypeKind := [scalar, object, interface, union, enum, inputObject]

/-- The keyword that introduces a definition. -/
def keyword : TypeKind → String
  | scalar => "scalar"
  | object => "type"
  | interface => "interface"
  | union => "union"
  | enum => "enum"
  | inputObject => "input"

def ofKeyword? (word : String) : Option TypeKind := all.find? (·.keyword = word)

end TypeKind

/-- What the definitions of the six kinds of type have of their own. -/
inductive TypeBody where
  | scalar
  | object (interfaces : List Name) (fields : List FieldDefinition)
  | interface (interfaces : List Name) (fields : List FieldDefinition)
  | union (members : List Name)
  | enum (values : List EnumValueDefinition)
  | inputObject (fields : List InputValueDefinition)

namespace TypeBody

def kind : TypeBody → TypeKind
  | scalar => .scalar
  | object .. => .object
  | interface .. => .interface
  | union _ => .union
  | enum _ => .enum
  | inputObject _ => .inputObject

def keyword (body : TypeBody) : String := body.kind.keyword

end TypeBody

structure TypeDefinition where
  description : Option StringLiteral
  name : Name
  directives : List Directive
  body : TypeBody
  span : Span

/-- `query: Query` inside a definition of the schema. -/
structure RootOperation where
  kind : OperationKind
  typeName : Name
  span : Span
deriving DecidableEq

structure SchemaDefinition where
  description : Option StringLiteral
  directives : List Directive
  rootOperations : List RootOperation
  span : Span

structure DirectiveDefinition where
  description : Option StringLiteral
  name : Name
  arguments : List InputValueDefinition
  repeatable : Bool
  locations : List LocatedPlace
  span : Span

inductive TypeSystemDefinition where
  | schema (definition : SchemaDefinition)
  | schemaExtension (definition : SchemaDefinition)
  | type (definition : TypeDefinition)
  | typeExtension (definition : TypeDefinition)
  | directive (definition : DirectiveDefinition)

def TypeSystemDefinition.span : TypeSystemDefinition → Span
  | schema d | schemaExtension d => d.span
  | type d | typeExtension d => d.span
  | directive d => d.span

structure SchemaDocument where
  definitions : List TypeSystemDefinition
  span : Span

end GraphQL
