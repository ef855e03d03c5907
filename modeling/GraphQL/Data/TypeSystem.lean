import GraphQL.Data.Executable
import GraphQL.Syntax.TypeSystem

/-!
# Schema documents as plain data
-/

namespace GraphQL

/-- A place of directives in words joined without a sign. -/
def DirectiveLocation.label : DirectiveLocation → String
  | query => "Query"
  | mutation => "Mutation"
  | subscription => "Subscription"
  | field => "Field"
  | fragmentDefinition => "FragmentDefinition"
  | fragmentSpread => "FragmentSpread"
  | inlineFragment => "InlineFragment"
  | variableDefinition => "VariableDefinition"
  | schema => "Schema"
  | scalar => "Scalar"
  | object => "Object"
  | fieldDefinition => "FieldDefinition"
  | argumentDefinition => "ArgumentDefinition"
  | interface => "Interface"
  | union => "Union"
  | enum => "Enum"
  | enumValue => "EnumValue"
  | inputObject => "InputObject"
  | inputFieldDefinition => "InputFieldDefinition"

def TypeKind.label : TypeKind → String
  | scalar => "Scalar"
  | object => "Object"
  | interface => "Interface"
  | union => "Union"
  | enum => "Enum"
  | inputObject => "InputObject"

instance : ToData DirectiveLocation := ⟨fun l => data l.label⟩

instance : ToData LocatedPlace := ⟨fun l => .record [("kind", data l.place), ("span", data l.span)]⟩

instance : ToData InputValueDefinition where
  data i := .record [("description", data i.description), ("name", data i.name), ("value_type", data i.type),
    ("default_value", data i.defaultValue), ("directives", data i.directives), ("span", data i.span)]

instance : ToData FieldDefinition where
  data f := .record [("description", data f.description), ("name", data f.name), ("arguments", data f.arguments),
    ("field_type", data f.type), ("directives", data f.directives), ("span", data f.span)]

instance : ToData EnumValueDefinition where
  data v := .record [("description", data v.description), ("name", data v.name), ("directives", data v.directives),
    ("span", data v.span)]

/-- The parts of a body as they stand in the record of a type definition. -/
def TypeBody.parts : TypeBody → List (String × Data)
  | scalar => []
  | object interfaces fields | interface interfaces fields =>
    [("implements", data interfaces), ("fields", data fields)]
  | union members => [("members", data members)]
  | enum values => [("values", data values)]
  | inputObject fields => [("fields", data fields)]

instance : ToData TypeDefinition where
  data t := .shape t.body.kind.label (.record ([("description", data t.description), ("name", data t.name),
    ("directives", data t.directives), ("span", data t.span)] ++ t.body.parts))

instance : ToData RootOperation where
  data r := .record [("operation_kind", data r.kind), ("named_type", data r.typeName), ("span", data r.span)]

instance : ToData SchemaDefinition where
  data s := .record [("description", data s.description), ("directives", data s.directives),
    ("root_operations", data s.rootOperations), ("span", data s.span)]

instance : ToData DirectiveDefinition where
  data d := .record [("description", data d.description), ("name", data d.name), ("arguments", data d.arguments),
    ("repeatable", data d.repeatable), ("locations", data d.locations), ("span", data d.span)]

instance : ToData TypeSystemDefinition where
  data
    | .schema d => .shape "Schema" (data d)
    | .schemaExtension d => .shape "SchemaExtension" (data d)
    | .type d => .shape "Type" (data d)
    | .typeExtension d => .shape "TypeExtension" (data d)
    | .directive d => .shape "Directive" (data d)

instance : ToData SchemaDocument := ⟨fun d => .record [("definitions", data d.definitions), ("span", data d.span)]⟩

end GraphQL
