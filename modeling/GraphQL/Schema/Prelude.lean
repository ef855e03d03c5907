import GraphQL.Grammar.TypeSystem

/-!
# The prelude

What every schema starts with: the five scalars, four directives and the types of introspection, and the fields
that can be selected without being declared. Both are written in the schema language, and their spans point into
these texts.
-/

namespace GraphQL.Prelude

def text : String := "
\"The `Boolean` scalar type represents `true` or `false`.\"
scalar Boolean

\"The `Float` scalar type represents signed double-precision fractional values.\"
scalar Float

\"The `ID` scalar type represents a unique identifier.\"
scalar ID

\"The `Int` scalar type represents non-fractional signed whole numeric values between -(2^31) and 2^31 - 1.\"
scalar Int

\"The `String` scalar type represents textual data as UTF-8 character sequences.\"
scalar String

\"Directs the executor to skip this field or fragment when the `if` argument is true.\"
directive @skip(if: Boolean!) on FIELD | FRAGMENT_SPREAD | INLINE_FRAGMENT

\"Directs the executor to include this field or fragment only when the `if` argument is true.\"
directive @include(if: Boolean!) on FIELD | FRAGMENT_SPREAD | INLINE_FRAGMENT

\"Marks an element of a GraphQL schema as no longer supported.\"
directive @deprecated(
  reason: String = \"No longer supported\"
) on FIELD_DEFINITION | ARGUMENT_DEFINITION | INPUT_FIELD_DEFINITION | ENUM_VALUE

\"Exposes a URL that specifies the behavior of this scalar.\"
directive @specifiedBy(url: String!) on SCALAR

type __Schema \x7b
  description: String
  types: [__Type!]!
  queryType: __Type!
  mutationType: __Type
  subscriptionType: __Type
  directives: [__Directive!]!
\x7d

type __Type \x7b
  kind: __TypeKind!
  name: String
  description: String
  specifiedByURL: String
  fields(includeDeprecated: Boolean = false): [__Field!]
  interfaces: [__Type!]
  possibleTypes: [__Type!]
  enumValues(includeDeprecated: Boolean = false): [__EnumValue!]
  inputFields(includeDeprecated: Boolean = false): [__InputValue!]
  ofType: __Type
\x7d

enum __TypeKind \x7b
  SCALAR
  OBJECT
  INTERFACE
  UNION
  ENUM
  INPUT_OBJECT
  LIST
  NON_NULL
\x7d

type __Field \x7b
  name: String!
  description: String
  args(includeDeprecated: Boolean = false): [__InputValue!]!
  type: __Type!
  isDeprecated: Boolean!
  deprecationReason: String
\x7d

type __InputValue \x7b
  name: String!
  description: String
  type: __Type!
  defaultValue: String
  isDeprecated: Boolean!
  deprecationReason: String
\x7d

type __EnumValue \x7b
  name: String!
  description: String
  isDeprecated: Boolean!
  deprecationReason: String
\x7d

type __Directive \x7b
  name: String!
  description: String
  locations: [__DirectiveLocation!]!
  args(includeDeprecated: Boolean = false): [__InputValue!]!
  isRepeatable: Boolean!
\x7d

enum __DirectiveLocation \x7b
  QUERY
  MUTATION
  SUBSCRIPTION
  FIELD
  FRAGMENT_DEFINITION
  FRAGMENT_SPREAD
  INLINE_FRAGMENT
  VARIABLE_DEFINITION
  SCHEMA
  SCALAR
  OBJECT
  FIELD_DEFINITION
  ARGUMENT_DEFINITION
  INTERFACE
  UNION
  ENUM
  ENUM_VALUE
  INPUT_OBJECT
  INPUT_FIELD_DEFINITION
\x7d
"

def metaText : String := "
type __MetaFields \x7b
  __typename: String!
  __schema: __Schema!
  __type(name: String!): __Type
\x7d
"

/-- The definitions that a text holds; a text that does not parse holds none. -/
def read (source : String) : List TypeSystemDefinition :=
  match SchemaDocument.parse source with
  | .ok d => d.definitions
  | .error _ => []

/-- The definitions that come before those of any document. -/
def definitions : List TypeSystemDefinition := read text

/-- `__typename`, for every type with fields, and `__schema` and `__type`, for the query root. -/
def metaFields : List FieldDefinition :=
  (read metaText).flatMap fun
    | .type ⟨_, _, _, .object _ fields, _⟩ => fields
    | _ => []

end GraphQL.Prelude
