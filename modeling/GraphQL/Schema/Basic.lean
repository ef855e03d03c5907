import GraphQL.Schema.Prelude
import GraphQL.Schema.Subtype

/-!
# Schemas

A schema holds its types and directives in the order of their definitions, those of the prelude first, and names
the types at which operations begin. `Schema.build` makes schemas whose references all resolve; here are the
questions that a schema answers.
-/

namespace GraphQL

structure Schema where
  types : List TypeDefinition
  directives : List DirectiveDefinition
  query : String
  mutation : Option String
  subscription : Option String

namespace Schema

def type? (s : Schema) (name : String) : Option TypeDefinition := Named.find? s.types name

def directive? (s : Schema) (name : String) : Option DirectiveDefinition := Named.find? s.directives name

/-- The name of the type at which operations of a kind begin. -/
def rootName? (s : Schema) : OperationKind → Option String
  | .query => some s.query
  | .mutation => s.mutation
  | .subscription => s.subscription

def root? (s : Schema) (kind : OperationKind) : Option TypeDefinition := s.rootName? kind >>= s.type?

/-- The object types that a value of a composite type can have: the type itself, the objects that implement an
interface, the members of a union. -/
def possibleTypes (s : Schema) (name : String) : List String :=
  match s.type? name with
  | some t => match t.body with
    | .object .. => [name]
    | .interface .. => Named.names (s.types.filter fun o => o.kind = .object && o.implements name)
    | .union members => Named.names members
    | _ => []
  | none => []

/-- The field that a selection on a type means. Every composite type has `__typename`; the query root also has
`__schema` and `__type`. -/
def field? (s : Schema) (type field : String) : Option FieldDefinition :=
  match s.type? type with
  | none => none
  | some t =>
    if !t.kind.isComposite then none
    else if field = "__typename" || ((field = "__schema" || field = "__type") && type = s.query) then
      Named.find? Prelude.metaFields field
    else Named.find? t.fields field

def isPossible (s : Schema) (abstract candidate : String) : Bool := isPossibleType s.types abstract candidate

/-- Whether some object type belongs to both composite types. -/
def overlap (s : Schema) (a b : String) : Bool :=
  a = b || (s.possibleTypes a).any (· ∈ s.possibleTypes b)

end Schema

end GraphQL
