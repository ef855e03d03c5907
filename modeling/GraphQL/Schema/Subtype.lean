import GraphQL.Schema.Types

/-!
# Subtypes

A value of a subtype can stand wherever a value of the type is expected. Between named types that means the same
type, a member of a union or an implementation of an interface, looking one step deep; a list of subtypes is a
subtype, and so is a type without null.
-/

namespace GraphQL

/-- Whether `candidate` is a member of the union `abstract`, or says that it implements the interface `abstract`.
-/
def isPossibleType (types : List TypeDefinition) (abstract candidate : String) : Bool :=
  match Named.find? types abstract with
  | some t => match t.body with
    | .union members => Named.contains members candidate
    | .interface .. => match Named.find? types candidate with
      | some c => c.implements abstract
      | none => false
    | _ => false
  | none => false

/-- Whether a value of the first type can stand where the second is expected. -/
def isSubtype (types : List TypeDefinition) : TypeRef → TypeRef → Bool
  | .named a n _, .named b m _ => (m || !n) && (a.value = b.value || isPossibleType types b.value a.value)
  | .list a n _, .list b m _ => (m || !n) && isSubtype types a b
  | _, _ => false

end GraphQL
