import GraphQL.Data.TypeSystem
import GraphQL.Schema.Types

/-!
# Types of schemas as plain data

In a schema, unlike in a document, names and descriptions are texts without spans.
-/

namespace GraphQL

private def descriptionData (description : Option StringLiteral) : Data := data (description.map (·.value))

def InputValueDefinition.schemaData (i : InputValueDefinition) : Data :=
  .record [("name", data i.name.value), ("description", descriptionData i.description),
    ("type_annotation", data i.type), ("default_value", data i.defaultValue), ("directives", data i.directives),
    ("span", data i.span)]

private def parametersData (parameters : List InputValueDefinition) : Data :=
  .list (parameters.map (·.schemaData))

def FieldDefinition.schemaData (f : FieldDefinition) : Data :=
  .record [("name", data f.name.value), ("description", descriptionData f.description),
    ("parameters", parametersData f.arguments), ("type_annotation", data f.type), ("directives", data f.directives),
    ("span", data f.span)]

def EnumValueDefinition.schemaData (v : EnumValueDefinition) : Data :=
  .record [("name", data v.name.value), ("description", descriptionData v.description),
    ("directives", data v.directives), ("span", data v.span)]

/-- The parts of a body as they stand in the record of a type. -/
def TypeBody.schemaParts : TypeBody → List (String × Data)
  | scalar => []
  | object interfaces fields | interface interfaces fields =>
    [("interfaces", data interfaces), ("fields", .list (fields.map (·.schemaData)))]
  | union members => [("members", data members)]
  | enum values => [("values", .list (values.map (·.schemaData)))]
  | inputObject fields => [("fields", parametersData fields)]

def TypeDefinition.schemaData (t : TypeDefinition) : Data :=
  .shape t.kind.label (.record ([("name", data t.name.value), ("description", descriptionData t.description),
    ("directives", data t.directives), ("span", data t.span)] ++ t.body.schemaParts))

def DirectiveDefinition.schemaData (d : DirectiveDefinition) : Data :=
  .record [("name", data d.name.value), ("description", descriptionData d.description),
    ("parameters", parametersData d.arguments), ("repeatable", data d.repeatable),
    ("locations", data (d.locations.map (·.place))), ("span", data d.span)]

end GraphQL
